import MovePlan.Proofs.Plan.Flags

set_option autoImplicit false

/-!
# What the kind of a destruction promises

A place that is always destroyed holds a value at every end of its lifetime, on every run. A place gets
a flag only if two runs disagree: at ends of the lifetime, or at a write that destroys the old value.
-/
namespace MovePlan
open TraceEvent (At)

namespace StateSet

theorem eq_valid_of_summary {s : StateSet} (h : s.summary = .valid) {c : Condition}
    (hc : s.has c = true) : c = .valid := by
  rcases s with ⟨_ | _, _ | _, _ | _⟩ <;> cases c <;> revert h hc <;> decide

theorem exists_of_summary_ne {s : StateSet} (h : s.summary ≠ .valid) {c : Condition}
    (hc : s.has c = true) : ∃ c', c' ≠ .valid ∧ s.has c' = true := by
  by_contra hall
  push Not at hall
  obtain rfl : c = .valid := by
    by_contra hne
    exact hall c hne hc
  have hmoved : ¬ s.moved = true := hall .moved (by decide)
  have huninit : ¬ s.uninit = true := hall .uninit (by decide)
  obtain rfl : s = onlyValid := by
    rw [Bool.not_eq_true] at hmoved huninit
    have hvalid : s.valid = true := hc
    rcases s with ⟨_, _, _⟩
    simp_all [onlyValid]
  exact h rfl

theorem summary_ne_unreached {s : StateSet} {c : Condition} (hc : s.has c = true) :
    s.summary ≠ .unreached := by
  rcases s with ⟨_ | _, _ | _, _ | _⟩ <;> cases c <;> revert hc <;> decide

theorem has_of_maybe {s : StateSet} (h : s.summary = .maybe) :
    s.has .valid = true ∧ ∃ c, c ≠ .valid ∧ s.has c = true := by
  have hv : s.has .valid = true := valid_iff_summary.2 (.inr h)
  exact ⟨hv, exists_of_summary_ne (by rw [h]; decide) hv⟩

end StateSet

namespace Function
variable {f : Function} {m : TypeModel} {settings : Settings} {plan : FunctionPlan}
  {moves : List SiteId} {place : Place} {b : Binding} {flag : DropFlag}

/-- The site gives the place a value, inside the region. -/
def Supplies (place : Place) (b : Binding) (s : Site) : Prop :=
  Renews place s ∧ b.inRegion s.block = true

instance (place : Place) (b : Binding) : DecidablePred (Supplies place b) := fun s =>
  inferInstanceAs (Decidable (Renews place s ∧ b.inRegion s.block = true))

/-- The place has a value when a run starts: it belongs to a parameter or to a captured binding. -/
def Given (f : Function) (place : Place) (b : Binding) : Prop := b.isParam = true ∨ place.binding ∈ f.captures

/-- The place has got a value since the run came into the region, unless it had one from the start. -/
def Supplied (f : Function) (place : Place) (b : Binding) (events : List TraceEvent) : Prop :=
  (f.Given place b ∧ ∀ x ∈ events, ¬ Outside b x) ∨
    Since (At (Supplies place b)) (Outside b) events

/-- The place has got a value in this stay in the region, and it has not been moved out since. -/
def Holds (f : Function) (moves : List SiteId) (place : Place) (b : Binding) (events : List TraceEvent) : Prop :=
  f.Supplied place b events ∧ ¬ Taken moves place events

instance (f : Function) (place : Place) (b : Binding) : Decidable (f.Given place b) :=
  inferInstanceAs (Decidable (b.isParam = true ∨ place.binding ∈ f.captures))

instance (f : Function) (place : Place) (b : Binding) : DecidablePred (f.Supplied place b) := fun events =>
  inferInstanceAs (Decidable ((f.Given place b ∧ ∀ x ∈ events, ¬ Outside b x) ∨
    Since (At (Supplies place b)) (Outside b) events))

instance (f : Function) (moves : List SiteId) (place : Place) (b : Binding) :
    DecidablePred (f.Holds moves place b) :=
  fun events => inferInstanceAs (Decidable (f.Supplied place b events ∧
    ¬ Since (At (Takes moves place)) (At (Renews place)) events))

theorem supplied_snoc {events : List TraceEvent} {x : TraceEvent} :
    f.Supplied place b (events ++ [x]) ↔
      At (Supplies place b) x ∨ (f.Supplied place b events ∧ ¬ Outside b x) := by
  rw [Supplied, Supplied, since_snoc]
  constructor
  · rintro (⟨hparam, hall⟩ | hnew | ⟨hold, hx⟩)
    · exact .inr ⟨.inl ⟨hparam, fun y hy => hall y (by simp [hy])⟩, hall x (by simp)⟩
    · exact .inl hnew
    · exact .inr ⟨.inr hold, hx⟩
  · rintro (hnew | ⟨⟨hparam, hall⟩ | hold, hx⟩)
    · exact .inr (.inl hnew)
    · refine .inl ⟨hparam, fun y hy => ?_⟩
      rcases List.mem_append.1 hy with hy | hy
      · exact hall y hy
      · rwa [List.mem_singleton.1 hy]
    · exact .inr (.inr ⟨hold, hx⟩)

/-- The condition of the analysis follows what the run has done to the place. -/
structure Tracks (f : Function) (moves : List SiteId) (place : Place) (b : Binding)
    (events : List TraceEvent) : Prop where
  supplied : f.Supplied place b events →
    (f.conditionOn moves place b events = .valid ∧ ¬ Taken moves place events) ∨
      (f.conditionOn moves place b events = .moved ∧ Taken moves place events)
  unsupplied : ¬ f.Supplied place b events → f.conditionOn moves place b events ≠ .valid

theorem Tracks.valid_iff {events : List TraceEvent} (h : f.Tracks moves place b events) :
    f.conditionOn moves place b events = .valid ↔ f.Holds moves place b events := by
  by_cases hsupplied : f.Supplied place b events
  · rcases h.supplied hsupplied with ⟨hv, htaken⟩ | ⟨hmoved, htaken⟩
    · exact iff_of_true hv ⟨hsupplied, htaken⟩
    · have hne : f.conditionOn moves place b events ≠ .valid := by rw [hmoved]; decide
      exact iff_of_false hne fun h => h.2 htaken
  · exact iff_of_false (h.unsupplied hsupplied) fun h => hsupplied h.1

theorem tracks_nil (f : Function) (moves : List SiteId) (place : Place) (b : Binding) :
    f.Tracks moves place b [] := by
  have hstart : f.conditionOn moves place b [] = if f.Given place b then .valid else .uninit := by
    rw [conditionOn, List.foldl_nil, startCondition]
    exact if_congr (by simp [Given]) rfl rfl
  have hsupplied : f.Supplied place b [] ↔ f.Given place b := by simp [Supplied, not_since_nil]
  constructor
  · intro h
    rw [hstart, if_pos (hsupplied.1 h)]
    exact .inl ⟨rfl, not_since_nil⟩
  · intro h
    rw [hstart, if_neg fun hgiven => h (hsupplied.2 hgiven)]
    decide

theorem tracks_enter {events : List TraceEvent} {id : BlockId} (h : f.Tracks moves place b events) :
    f.Tracks moves place b (events ++ [.enter id]) := by
  have hsupplied : f.Supplied place b (events ++ [.enter id]) ↔
      f.Supplied place b events ∧ b.inRegion id = true := by
    rw [supplied_snoc]
    simp [Outside]
  have htaken : Taken moves place (events ++ [.enter id]) ↔ Taken moves place events := by
    rw [Taken, since_snoc]
    simp [Taken]
  have hstep : f.conditionOn moves place b (events ++ [.enter id]) =
      if b.inRegion id then f.conditionOn moves place b events else .uninit := by
    rw [conditionOn_append, List.foldl_cons, List.foldl_nil, conditionStep]
  constructor
  · rw [hsupplied, htaken, hstep]
    rintro ⟨hold, hin⟩
    rw [if_pos hin]
    exact h.supplied hold
  · rw [hsupplied, hstep]
    intro hnot
    split
    next hin => exact h.unsupplied fun hold => hnot ⟨hold, hin⟩
    next => decide

theorem tracks_pass {events : List TraceEvent} {s : Site} (hin : b.inRegion s.block = true)
    (h : f.Tracks moves place b events) : f.Tracks moves place b (events ++ [.pass s]) := by
  have hsupplied : f.Supplied place b (events ++ [.pass s]) ↔ Renews place s ∨ f.Supplied place b events := by
    rw [supplied_snoc]
    simp [Outside, Supplies, hin]
  have hstep : f.conditionOn moves place b (events ++ [.pass s]) =
      conditionAfter moves place s (f.conditionOn moves place b events) := by
    rw [conditionOn_append, List.foldl_cons, List.foldl_nil, conditionStep, if_pos hin]
  by_cases htakes : Takes moves place s
  · rw [conditionAfter_of_takes htakes] at hstep
    exact ⟨fun _ => .inr ⟨hstep, taken_snoc.2 (.inl htakes)⟩, fun _ => by rw [hstep]; decide⟩
  by_cases hrenews : Renews place s
  · rw [conditionAfter_of_renews hrenews] at hstep
    have htaken : ¬ Taken moves place (events ++ [.pass s]) := by
      rw [taken_snoc]
      exact fun h => h.elim htakes fun h => h.2 hrenews
    exact ⟨fun _ => .inl ⟨hstep, htaken⟩, fun hnot => absurd (hsupplied.2 (.inl hrenews)) hnot⟩
  · rw [conditionAfter_of_not htakes hrenews] at hstep
    have htaken : Taken moves place (events ++ [.pass s]) ↔ Taken moves place events := by
      rw [taken_snoc, or_iff_right htakes, and_iff_left hrenews]
    rw [or_iff_right hrenews] at hsupplied
    constructor
    · rw [hsupplied, hstep, htaken]
      exact h.supplied
    · rw [hsupplied, hstep]
      exact h.unsupplied

theorem not_supplied_outside {events : List TraceEvent} {id : BlockId} (hout : b.inRegion id = false)
    {sites : List Site} (hsites : ∀ s ∈ sites, s.block = id) :
    ¬ f.Supplied place b (events ++ .enter id :: sites.map .pass) := by
  induction sites using List.reverseRecOn with
  | nil =>
    rw [List.map_nil, supplied_snoc]
    simp [Outside, hout]
  | append_singleton sites s ih =>
    have hs : b.inRegion s.block = false := by rw [hsites s (by simp)]; exact hout
    have hold := ih fun t ht => hsites t (by simp [ht])
    rw [List.map_append, List.map_singleton, ← List.cons_append, ← List.append_assoc, supplied_snoc]
    simp [Supplies, hs, hold]

theorem tracks_outside {events : List TraceEvent} {id : BlockId} (hout : b.inRegion id = false)
    {sites : List Site} (hsites : ∀ s ∈ sites, s.block = id) :
    f.Tracks moves place b (events ++ .enter id :: sites.map .pass) := by
  have hcondition : f.conditionOn moves place b (events ++ .enter id :: sites.map .pass) = .uninit := by
    rw [conditionOn_append, List.foldl_cons, conditionStep, if_neg (by simp [hout])]
    exact foldl_conditionStep_pass_outside hout hsites _
  exact ⟨fun h => absurd h (not_supplied_outside hout hsites), fun _ => by rw [hcondition]; decide⟩

theorem tracks_block {events : List TraceEvent} {id : BlockId} {sites : List Site}
    (hsites : ∀ s ∈ sites, s.block = id) (h : f.Tracks moves place b events) :
    f.Tracks moves place b (events ++ .enter id :: sites.map .pass) := by
  cases hin : b.inRegion id with
  | false => exact tracks_outside hin hsites
  | true =>
    induction sites using List.reverseRecOn with
    | nil => exact tracks_enter h
    | append_singleton sites s ih =>
      have hs : b.inRegion s.block = true := by rw [hsites s (by simp)]; exact hin
      have hold := ih fun t ht => hsites t (by simp [ht])
      rw [List.map_append, List.map_singleton, ← List.cons_append, ← List.append_assoc]
      exact tracks_pass hs hold

theorem tracks_trace (wf : f.WellFormed) {c : BlockId} {es : List Edge} (hw : f.Walk f.entry es c) :
    f.Tracks moves place b (f.trace f.entry es) := by
  induction es using List.reverseRecOn generalizing c with
  | nil =>
    rw [trace_nil, ← List.nil_append (f.eventsAt f.entry)]
    exact tracks_block (fun s hs => wf.block hs) (tracks_nil f moves place b)
  | append_singleton es e ih =>
    obtain ⟨p, hes, _, _⟩ := walk_snoc.1 hw
    rw [trace_snoc]
    exact tracks_block (fun s hs => wf.block hs) (ih hes)

theorem tracks_approach (wf : f.WellFormed) {c : BlockId} {es : List Edge} (hw : f.Walk f.entry es c) :
    f.Tracks moves place b (f.approach f.entry es) := by
  rcases List.eq_nil_or_concat es with rfl | ⟨es, e, rfl⟩
  · exact tracks_nil f moves place b
  · rw [List.concat_eq_append] at hw ⊢
    obtain ⟨p, hes, _, _⟩ := walk_snoc.1 hw
    rw [approach_snoc]
    exact tracks_trace wf hes

theorem tracks_before (wf : f.WellFormed) {c : BlockId} {es : List Edge} {before after : List TraceEvent} {s : Site}
    (hw : f.Walk f.entry es c) (ht : f.trace f.entry es = before ++ .pass s :: after) :
    f.Tracks moves place b before := by
  obtain ⟨es₁, _, id, pre, post, _, h₁, _, hsites, rfl, _⟩ := trace_split_pass hw ht
  exact tracks_block (fun t ht => wf.block (by simp [hsites, ht])) (tracks_approach wf h₁)

/-- Two runs come to ends of the lifetime, one with a value in the place and one without. -/
def ExitsDisagree (f : Function) (moves : List SiteId) (place : Place) (b : Binding) : Prop :=
  ∃ x ∈ f.scopeExits f.graph b, ∃ y ∈ f.scopeExits f.graph b, ∃ es es',
    f.Walk f.entry es x.block ∧ f.Walk f.entry es' y.block ∧
      f.Holds moves place b (f.trace f.entry es) ∧ ¬ f.Holds moves place b (f.trace f.entry es')

/-- Two runs come to one write over the place, one with a value in the place and one without. -/
def WritesDisagree (f : Function) (moves : List SiteId) (place : Place) (b : Binding) : Prop :=
  ∃ s ∈ f.allSites, s.kind = .write ∧ s.binding = some place.binding ∧ place.coveredBy s.path = true ∧
    ∃ es es' c c' before before' after after', f.Walk f.entry es c ∧ f.Walk f.entry es' c' ∧
      f.trace f.entry es = before ++ .pass s :: after ∧
      f.trace f.entry es' = before' ++ .pass s :: after' ∧
      f.Holds moves place b before ∧ ¬ f.Holds moves place b before'

theorem inRegion_of_stateBefore (wf : f.WellFormed) {r : PlaceStates}
    (hb : f.binding? place.binding = some b) (h : f.placeStatesIn f.graph moves place = .ok r)
    {s : Site} (hs : s ∈ f.allSites) (hstate : r.stateBefore s.id ≠ .unreached) :
    b.inRegion s.block = true := by
  rw [PlaceStates.stateBefore, PlaceStates.setBefore] at hstate
  cases hset : lastWrite s.id r.before with
  | none =>
    rw [hset] at hstate
    exact absurd rfl hstate
  | some x => exact (reached_of_before wf hb h hs hset).2

/-- The conditions before a site are those that runs bring there while they are in the region. -/
theorem has_setBefore_iff (wf : f.WellFormed) {r : PlaceStates} (hb : f.binding? place.binding = some b)
    (h : f.placeStatesIn f.graph moves place = .ok r) {s : Site} (hs : s ∈ f.allSites)
    (hn : s.binding = some place.binding) {c : Condition} :
    (r.setBefore s.id).has c = true ↔ b.inRegion s.block = true ∧
      ∃ es d before after, f.Walk f.entry es d ∧ f.trace f.entry es = before ++ .pass s :: after ∧
        f.conditionOn moves place b before = c := by
  constructor
  · intro hc
    have hin : b.inRegion s.block = true :=
      inRegion_of_stateBefore wf hb h hs (StateSet.summary_ne_unreached hc)
    exact ⟨hin, (has_setBefore wf hb h hs hn hin).1 hc⟩
  · exact fun ⟨hin, hcomes⟩ => (has_setBefore wf hb h hs hn hin).2 hcomes

/-- Two runs come to the site, one with a value in the place and one without. -/
def DisagreeBefore (f : Function) (moves : List SiteId) (place : Place) (b : Binding) (s : Site) : Prop :=
  ∃ es es' c c' before before' after after', f.Walk f.entry es c ∧ f.Walk f.entry es' c' ∧
    f.trace f.entry es = before ++ .pass s :: after ∧
    f.trace f.entry es' = before' ++ .pass s :: after' ∧
    f.Holds moves place b before ∧ ¬ f.Holds moves place b before'

theorem disagreeBefore_of_maybe (wf : f.WellFormed) {r : PlaceStates}
    (hb : f.binding? place.binding = some b)
    (h : f.placeStatesIn f.graph moves place = .ok r) {s : Site} (hs : s ∈ f.allSites)
    (hn : s.binding = some place.binding) (hmaybe : r.stateBefore s.id = .maybe) :
    f.DisagreeBefore moves place b s := by
  have hin : b.inRegion s.block = true :=
    inRegion_of_stateBefore wf hb h hs (by rw [hmaybe]; decide)
  obtain ⟨hvalid, c, hne, hother⟩ := StateSet.has_of_maybe hmaybe
  obtain ⟨es, d, before, after, hw, ht, hv⟩ := (has_setBefore wf hb h hs hn hin).1 hvalid
  obtain ⟨es', d', before', after', hw', ht', hv'⟩ := (has_setBefore wf hb h hs hn hin).1 hother
  have hyes := (tracks_before wf hw ht).valid_iff.1 hv
  have hno : ¬ f.Holds moves place b before' := by
    rw [← (tracks_before wf hw' ht').valid_iff, hv']
    exact hne
  exact ⟨es, es', d, d', before, before', after, after', hw, hw', ht, ht', hyes, hno⟩

theorem writesDisagree_of_maybe (wf : f.WellFormed) {r : PlaceStates}
    (hb : f.binding? place.binding = some b)
    (h : f.placeStatesIn f.graph moves place = .ok r) {s : Site} (hs : s ∈ f.reinits r)
    (hmaybe : r.stateBefore s.id = .maybe) : f.WritesDisagree moves place b := by
  rw [reinits, placeStates_place h, List.mem_filter, Bool.and_eq_true, Bool.and_eq_true,
    decide_eq_true_eq] at hs
  obtain ⟨hmem, ⟨hk, hcov⟩, _⟩ := hs
  obtain ⟨hall, hn⟩ := mem_sitesOf.1 hmem
  exact ⟨s, hall, hk, hn, hcov, disagreeBefore_of_maybe wf hb h hall hn hmaybe⟩

theorem exists_run_of_has (wf : f.WellFormed) {x : ScopeExit} (hx : x ∈ f.scopeExits f.graph b)
    {c : Condition} (h : ((f.statesAtEnd f.graph moves place b).at? .empty x.block).has c = true) :
    ∃ es, f.Walk f.entry es x.block ∧ f.conditionOn moves place b (f.trace f.entry es) = c :=
  (has_statesAtEnd wf (mem_scopeExits.1 hx).1.1).1 h

theorem exitsDisagree_of_states (wf : f.WellFormed) {r : PlaceStates}
    (hb : f.binding? place.binding = some b)
    (h : f.placeStatesIn f.graph moves place = .ok r)
    (halive : ∃ e ∈ r.exitStates, e.2 = .valid ∨ e.2 = .maybe)
    (hmixed : ∃ e ∈ r.exitStates, e.2 ≠ .valid) : f.ExitsDisagree moves place b := by
  obtain ⟨x, hx, es, hw, hvalid⟩ := (alive_exitStates wf hb h).1 halive
  obtain ⟨e, he, hne⟩ := hmixed
  obtain ⟨hy, hstate⟩ := (mem_exitStates hb h).1 he
  rw [hstate] at hne
  -- the block is reached, so that some condition is in its set
  obtain ⟨es₀, hw₀⟩ := (mem_scopeExits.1 hy).1.1.2
  obtain ⟨c, hc, hhas⟩ := StateSet.exists_of_summary_ne hne (statesAtEnd_of_walk wf hw₀)
  obtain ⟨es', hw', hother⟩ := exists_run_of_has wf hy hhas
  refine ⟨x, hx, e.1, hy, es, es', hw, hw', ?_, ?_⟩
  · exact (tracks_trace wf hw).valid_iff.1 hvalid
  · rw [← (tracks_trace wf hw').valid_iff, hother]
    exact hc

/-- A place that is always destroyed was found alive at every end of its lifetime. -/
theorem exits_of_always {moveSites : List Site} {r : PlaceStates}
    (h : (f.disposalFromStates b moveSites r).1 = .always) : ∀ e ∈ r.exitStates, e.2 = .valid := by
  simp only [disposalFromStates] at h
  split at h
  · cases h
  · split at h
    next hall =>
      rw [Bool.and_eq_true, List.all_eq_true] at hall
      intro e he
      simpa using hall.1 e.2 (List.mem_map_of_mem he)
    next => cases h

/-- A place gets a flag if it was found alive at some end of its lifetime, and at another not, or at a
write on some runs only. -/
theorem exits_of_guarded {moveSites : List Site} {r : PlaceStates}
    (h : (f.disposalFromStates b moveSites r).1 = .guarded flag) :
    (∃ e ∈ r.exitStates, e.2 = .valid ∨ e.2 = .maybe) ∧
      ((∃ e ∈ r.exitStates, e.2 ≠ .valid) ∨ ∃ s ∈ f.reinits r, r.stateBefore s.id = .maybe) := by
  simp only [disposalFromStates] at h
  split at h
  · cases h
  next howed =>
    constructor
    · rw [List.isEmpty_iff, List.filter_eq_nil_iff] at howed
      push Not at howed
      obtain ⟨st, hst, halive⟩ := howed
      obtain ⟨e, he, rfl⟩ := List.mem_map.1 hst
      exact ⟨e, he, by simpa using halive⟩
    · split at h
      · cases h
      next hmixed =>
        rw [Bool.and_eq_true, not_and_or] at hmixed
        rcases hmixed with hexits | hwrite
        · left
          simpa using hexits
        · right
          simpa using hwrite

/-- On every run, a place that is always destroyed holds a value at every end of its lifetime. A place is
guarded only if two runs disagree on whether it holds one, at ends of its lifetime or at one write. -/
theorem always_holds_guarded_disagrees (hplan : planFunction m settings f = .ok plan) (hx : plan.excluded = false)
    {d : DestructionPlan} (hd : plan.destruction.get? place = some d)
    (hb : f.binding? place.binding = some b) :
    (d.disposal = .always → ∀ x ∈ f.scopeExits f.graph b, ∀ es, f.Walk f.entry es x.block →
      f.Holds plan.moves place b (f.trace f.entry es)) ∧
    (∀ flag, d.disposal = .guarded flag →
      f.ExitsDisagree plan.moves place b ∨ f.WritesDisagree plan.moves place b) := by
  have hp := planned_of_planFunction hplan hx
  by_cases hne : d.disposal = .never
  · constructor
    · intro h
      rw [hne] at h
      cases h
    · intro flag h
      rw [hne] at h
      cases h
  obtain ⟨_, b', plans, _, hb', hplans, hmem⟩ := hp.bindingPlans hd
  rw [hb, Option.some.injEq] at hb'
  subst hb'
  obtain ⟨howned, hneeds⟩ := owed_of_bindingPlans hplans hmem hne
  obtain ⟨moved, x, hmoved, hplace, hdisposal, _⟩ := hp.placePlan hd hb howned hneeds
  obtain ⟨r, hr, ⟨_, rfl⟩ | ⟨_, rfl⟩⟩ := of_placePlan hplace
  · exact absurd hdisposal hne
  rw [hdisposal]
  constructor
  · intro halways y hy es hw
    have hmem : (y, ((f.statesAtEnd f.graph plan.moves place b).at? .empty y.block).summary) ∈
        r.exitStates := (mem_exitStates hb hr).2 ⟨hy, rfl⟩
    have hsummary := exits_of_always halways _ hmem
    have hvalid := StateSet.eq_valid_of_summary hsummary (statesAtEnd_of_walk hp.wf hw)
    exact (tracks_trace hp.wf hw).valid_iff.1 hvalid
  · intro flag hguard
    obtain ⟨halive, hmixed | ⟨s, hs, hmaybe⟩⟩ := exits_of_guarded hguard
    · exact .inl (exitsDisagree_of_states hp.wf hb hr halive hmixed)
    · exact .inr (writesDisagree_of_maybe hp.wf hb hr hs hmaybe)

def writtenAfterBranch : Function :=
  (Script.run .standard "f" .empty [
    .declare "t" (.named "Str"),
    .declare "u" (.named "Str"),
    .branchThen [
      .moveOut (.place "t") (some (.argument "g" 0 .value false false)) true false],
    .access .write "t",
    .ret .value []]).function

def writtenAfterBranchPlan : FunctionPlan :=
  (planFunction (TypeModel.build .standard) {} writtenAfterBranch).toOption.getD default

theorem planFunction_writtenAfterBranch :
    planFunction (TypeModel.build .standard) {} writtenAfterBranch = .ok writtenAfterBranchPlan :=
  eq_ok_of_isOk (by decide +kernel)

def writtenAfterBranchFlag : DropFlag where
  name := "t.live"
  place := { binding := "t" }
  declSite := some 0
  clears := [{ site := 2, block := 1 }]
  sets := [{ site := 3, block := 3 }]

theorem disposal_writtenAfterBranch :
    (writtenAfterBranch.ExitsDisagree writtenAfterBranchPlan.moves { binding := "t" } { name := "t", type := 2 } ∨
      writtenAfterBranch.WritesDisagree writtenAfterBranchPlan.moves { binding := "t" } { name := "t", type := 2 }) ∧
    ∀ x ∈ writtenAfterBranch.scopeExits writtenAfterBranch.graph { name := "t", type := 2 }, ∀ es,
      writtenAfterBranch.Walk writtenAfterBranch.entry es x.block →
      writtenAfterBranch.Holds writtenAfterBranchPlan.moves { binding := "u" } { name := "u", type := 2 }
        (writtenAfterBranch.trace writtenAfterBranch.entry es) := by
  have hx : writtenAfterBranchPlan.excluded = false := by decide +kernel
  have hb : writtenAfterBranch.binding? "t" = some { name := "t", type := 2 } := by decide +kernel
  have hb' : writtenAfterBranch.binding? "u" = some { name := "u", type := 2 } := by decide +kernel
  have hd : writtenAfterBranchPlan.destruction.get? { binding := "t" } =
      some { type := 2, disposal := .guarded writtenAfterBranchFlag, reason := .mixedExits } := by
    decide +kernel
  have hd' : writtenAfterBranchPlan.destruction.get? { binding := "u" } =
      some { type := 2, disposal := .always, reason := .neverMoved } := by decide +kernel
  exact ⟨(always_holds_guarded_disagrees planFunction_writtenAfterBranch hx hd hb).2 _ rfl,
    (always_holds_guarded_disagrees planFunction_writtenAfterBranch hx hd' hb').1 rfl⟩

/-- A parameter whose region leaves out a block, and a local that is written without a declaration. -/
def undeclared : Function where
  name := "f"
  blocks := .ofList [
    (0, { sites := [{ id := 0, block := 0, index := 0, kind := .write, binding := some "t" }]
          edges := [{ src := 0, dst := 1, kind := .onTrue }, { src := 0, dst := 2, kind := .onFalse }] }),
    (1, {}),
    (2, { edges := [{ src := 2, dst := 1 }] })]
  bindings := .ofList [
    ("p", { name := "p", type := 2, isParam := true, region := some [0, 1] }), ("t", { name := "t", type := 2 })]
  params := ["p"]

def undeclaredPlan : FunctionPlan :=
  (planFunction (TypeModel.build .standard) {} undeclared).toOption.getD default

theorem planFunction_undeclared :
    planFunction (TypeModel.build .standard) {} undeclared = .ok undeclaredPlan :=
  eq_ok_of_isOk (by decide +kernel)

def undeclaredParam : Binding := { name := "p", type := 2, isParam := true, region := some [0, 1] }

/-- A write alone brings a value, so that a place may be always destroyed without a declaration. A value
is lost with the region, so that a parameter may be guarded without a move. -/
theorem always_undeclared :
    undeclared.validate (some (TypeModel.build .standard)) = .ok [] ∧
      planFunction (TypeModel.build .standard) {} undeclared = .ok undeclaredPlan ∧
      undeclaredPlan.excluded = false ∧
      (undeclared.binding? "t" = some { name := "t", type := 2 } ∧
        undeclared.ownership { name := "t", type := 2 } = .owned ∧
        (TypeModel.build .standard).needsDestroy 2 = .ok true ∧
        undeclaredPlan.destruction.get? { binding := "t" } =
          some { type := 2, disposal := .always, reason := .neverMoved } ∧
        { block := 1, next := none } ∈ undeclared.scopeExits undeclared.graph { name := "t", type := 2 } ∧
        undeclared.Walk undeclared.entry [{ src := 0, dst := 1, kind := .onTrue }] 1 ∧
        ¬ Live undeclaredPlan.moves { binding := "t" } { name := "t", type := 2 }
          (undeclared.trace undeclared.entry [{ src := 0, dst := 1, kind := .onTrue }])) ∧
      (undeclared.binding? "p" = some undeclaredParam ∧
        undeclared.ownership undeclaredParam = .owned ∧
        (undeclaredPlan.destruction.get? { binding := "p" }).map (·.disposal.kind) = some .guarded ∧
        ∀ events, Live undeclaredPlan.moves { binding := "p" } undeclaredParam events) := by
  have hmoves : undeclaredPlan.moves = [] := by decide +kernel
  have hlive : ∀ events, Live undeclaredPlan.moves { binding := "p" } undeclaredParam events := by
    intro events
    refine ⟨.inl rfl, ?_⟩
    rintro ⟨_, x, _, _, hx, _⟩
    cases x with
    | enter id => cases hx
    | pass s =>
      have hid : s.id ∈ undeclaredPlan.moves := hx.1
      rw [hmoves] at hid
      cases hid
  refine ⟨?_, planFunction_undeclared, ?_, ⟨?_, ?_, ?_, ?_, ?_, ?_, ?_⟩, ?_, ?_, ?_, hlive⟩
  all_goals decide +kernel

end Function
end MovePlan
