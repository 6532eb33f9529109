import MovePlan.Proofs.Flow.Events
import MovePlan.Proofs.Plan.Destruction
import MovePlan.Proofs.Run
import MovePlan.Proofs.Text.Produced

set_option autoImplicit false

/-!
# Flags of guarded places

While the binding of a guarded place is declared, the flag of the place tells whether the place holds a
value. Nothing clears the flag where a lifetime ends. A run that comes back to the region finds it as it
was left, up to the next declaration.
-/
namespace MovePlan
open TraceEvent (At)

namespace DropFlag

/-- The site makes the flag hold. -/
def SetsAt (flag : DropFlag) (s : Site) : Prop :=
  flag.declSite = some s.id ∨ ∃ x ∈ flag.sets, x.site = s.id

def ClearsAt (flag : DropFlag) (s : Site) : Prop := ∃ x ∈ flag.clears, x.site = s.id

instance (flag : DropFlag) : DecidablePred flag.SetsAt := fun s =>
  inferInstanceAs (Decidable (flag.declSite = some s.id ∨ ∃ x ∈ flag.sets, x.site = s.id))

instance (flag : DropFlag) : DecidablePred flag.ClearsAt := fun s =>
  inferInstanceAs (Decidable (∃ x ∈ flag.clears, x.site = s.id))

/-- The flag holds after the events of a run. -/
def On (flag : DropFlag) (events : List TraceEvent) : Prop :=
  Since (At flag.SetsAt) (At flag.ClearsAt) events ∨
    (flag.declSite = none ∧ ∀ x ∈ events, ¬ At flag.ClearsAt x)

theorem on_snoc {flag : DropFlag} {events : List TraceEvent} {x : TraceEvent} :
    flag.On (events ++ [x]) ↔
      At flag.SetsAt x ∨ (flag.On events ∧ ¬ At flag.ClearsAt x) := by
  rw [On, On, since_snoc]
  constructor
  · rintro ((hset | ⟨hon, hclear⟩) | ⟨hnone, hall⟩)
    · exact .inl hset
    · exact .inr ⟨.inl hon, hclear⟩
    · exact .inr ⟨.inr ⟨hnone, fun y hy => hall y (by simp [hy])⟩, hall x (by simp)⟩
  · rintro (hset | ⟨hon | ⟨hnone, hall⟩, hclear⟩)
    · exact .inl (.inl hset)
    · exact .inl (.inr ⟨hon, hclear⟩)
    · refine .inr ⟨hnone, fun y hy => ?_⟩
      rcases List.mem_append.1 hy with hy | hy
      · exact hall y hy
      · rwa [List.mem_singleton.1 hy]

end DropFlag

namespace FunctionPlan
variable {plan : FunctionPlan} {flag : DropFlag}

theorem mem_flags {place : Place} {d : DestructionPlan} (hd : plan.destruction.get? place = some d)
    (hguard : d.disposal = .guarded flag) : flag ∈ plan.flags := by
  rw [OrderedMap.get?_eq_some_iff] at hd
  rw [flags, List.mem_filterMap]
  exact ⟨d, List.mem_map_of_mem hd, by rw [hguard]; rfl⟩

theorem mem_setAt (hflag : flag ∈ plan.flags)
    (hname : ∀ g ∈ plan.flags, g.name = flag.name → g = flag) (s : Site) :
    flag.name ∈ plan.setAt s.id ↔ flag.SetsAt s := by
  have hone : ∀ g : DropFlag, flag.name ∈ ((if g.declSite = some s.id then [g.name] else []) ++
      (g.sets.filter (·.site = s.id)).map fun _ => g.name) ↔ g.name = flag.name ∧ g.SetsAt s := by
    intro g
    rw [List.mem_append, List.mem_map, DropFlag.SetsAt]
    constructor
    · rintro (h | ⟨x, hx, hn⟩)
      · split at h
        next hs => exact ⟨(List.mem_singleton.1 h).symm, .inl hs⟩
        next => simp at h
      · rw [List.mem_filter, decide_eq_true_eq] at hx
        exact ⟨hn, .inr ⟨x, hx⟩⟩
    · rintro ⟨hn, hs | ⟨x, hx, hs⟩⟩
      · left
        rw [if_pos hs, hn, List.mem_singleton]
      · exact .inr ⟨x, List.mem_filter.2 ⟨hx, by simpa using hs⟩, hn⟩
  rw [setAt, List.mem_flatMap]
  simp only [hone]
  constructor
  · rintro ⟨g, hg, hn, hs⟩
    exact hname g hg hn ▸ hs
  · exact fun hs => ⟨flag, hflag, rfl, hs⟩

theorem mem_clearedAt (hflag : flag ∈ plan.flags)
    (hname : ∀ g ∈ plan.flags, g.name = flag.name → g = flag) (s : Site) :
    flag.name ∈ plan.clearedAt s.id ↔ flag.ClearsAt s := by
  rw [clearedAt, List.mem_flatMap]
  constructor
  · rintro ⟨g, hg, hn⟩
    obtain ⟨x, hx, hn⟩ := List.mem_map.1 hn
    rw [List.mem_filter, decide_eq_true_eq] at hx
    rw [← hname g hg hn]
    exact ⟨x, hx⟩
  · rintro ⟨x, hx, hs⟩
    exact ⟨flag, hflag, List.mem_map.2 ⟨x, List.mem_filter.2 ⟨hx, by simpa using hs⟩, rfl⟩⟩

theorem get?_flagsAfter (hflag : flag ∈ plan.flags)
    (hname : ∀ g ∈ plan.flags, g.name = flag.name → g = flag) (values : FlagValues) (x : TraceEvent) :
    (plan.flagsAfter values x).get? flag.name = some true ↔
      At flag.SetsAt x ∨
        (values.get? flag.name = some true ∧ ¬ At flag.ClearsAt x) := by
  cases x with
  | enter id => simp [flagsAfter]
  | pass s =>
    rw [flagsAfter, FlagValues.get?_setAll, FlagValues.get?_setAll, TraceEvent.at_pass,
      TraceEvent.at_pass, ← mem_setAt hflag hname, ← mem_clearedAt hflag hname]
    by_cases hset : flag.name ∈ plan.setAt s.id
    · simp [hset]
    · by_cases hclear : flag.name ∈ plan.clearedAt s.id <;> simp [hset, hclear]

theorem lastWrite_initialFlags (plan : FunctionPlan) (n : String) : plan.initialFlags.get? n =
    lastWrite n (plan.flags.map fun g => (g.name, g.declSite.isNone)) := by
  have hinitial : plan.initialFlags =
      OrderedMap.ofList (plan.flags.map fun g => (g.name, g.declSite.isNone)) := by
    rw [OrderedMap.ofList, List.foldl_map]
    rfl
  rw [hinitial, OrderedMap.get?_ofList]

theorem get?_initialFlags (hflag : flag ∈ plan.flags)
    (hname : ∀ g ∈ plan.flags, g.name = flag.name → g = flag) :
    plan.initialFlags.get? flag.name = some flag.declSite.isNone := by
  rw [lastWrite_initialFlags]
  refine lastWrite_eq_some (List.mem_map.2 ⟨flag, hflag, rfl⟩) fun v hv => ?_
  obtain ⟨g, hg, heq⟩ := List.mem_map.1 hv
  rw [Prod.mk.injEq] at heq
  rw [← heq.2, hname g hg heq.1]

/-- The value of a flag follows from the sites that a run has passed. -/
theorem get?_flags_iff (hflag : flag ∈ plan.flags)
    (hname : ∀ g ∈ plan.flags, g.name = flag.name → g = flag) (events : List TraceEvent) :
    (events.foldl plan.flagsAfter plan.initialFlags).get? flag.name = some true ↔ flag.On events := by
  induction events using List.reverseRecOn with
  | nil =>
    rw [List.foldl_nil, get?_initialFlags hflag hname, DropFlag.On]
    simp [not_since_nil]
  | append_singleton events x ih =>
    rw [List.foldl_append, List.foldl_cons, List.foldl_nil, get?_flagsAfter hflag hname, ih,
      DropFlag.on_snoc]

end FunctionPlan

namespace Function
variable {f : Function} {m : TypeModel} {settings : Settings} {plan : FunctionPlan}
  {moves : List SiteId} {place : Place} {b : Binding} {flag : DropFlag}

/-- The event comes into a block outside the region. -/
def Outside (b : Binding) : TraceEvent → Prop
  | .enter id => b.inRegion id = false
  | .pass _ => False

instance (b : Binding) : DecidablePred (Outside b)
  | .enter id => inferInstanceAs (Decidable (b.inRegion id = false))
  | .pass _ => inferInstanceAs (Decidable False)

/-- The binding is a parameter, or has been declared since the run came into its region. -/
def Declared (place : Place) (b : Binding) (events : List TraceEvent) : Prop :=
  b.isParam = true ∨ Since (At fun s => declares place.binding s = true) (Outside b) events

/-- The value has been moved out of the place, and no declaration or write has brought another. -/
def Taken (moves : List SiteId) (place : Place) (events : List TraceEvent) : Prop :=
  Since (At (Takes moves place)) (At (Renews place)) events

/-- The place holds a value. One that a scope exit has destroyed is not declared any more, since the run
has left the region. -/
def Live (moves : List SiteId) (place : Place) (b : Binding) (events : List TraceEvent) : Prop :=
  Declared place b events ∧ ¬ Taken moves place events

/-- The flag was set in an earlier stay in the region, and the binding is not declared in this one. -/
def Stale (flag : DropFlag) (place : Place) (b : Binding) (events : List TraceEvent) : Prop :=
  ¬ Declared place b events ∧ Since (At flag.SetsAt) (At flag.ClearsAt) events

instance (place : Place) (b : Binding) : DecidablePred (Declared place b) := fun events =>
  inferInstanceAs (Decidable (b.isParam = true ∨
    Since (At fun s => declares place.binding s = true) (Outside b) events))

instance (moves : List SiteId) (place : Place) (b : Binding) : DecidablePred (Live moves place b) :=
  fun events => inferInstanceAs (Decidable (Declared place b events ∧
    ¬ Since (At (Takes moves place)) (At (Renews place)) events))

instance (flag : DropFlag) (place : Place) (b : Binding) : DecidablePred (Stale flag place b) :=
  fun events => inferInstanceAs (Decidable (¬ Declared place b events ∧
    Since (At flag.SetsAt) (At flag.ClearsAt) events))

theorem declares_iff {name : String} {s : Site} :
    declares name s = true ↔ s.binding = some name ∧ s.kind = .decl := by
  rw [declares, Bool.and_eq_true, decide_eq_true_eq, decide_eq_true_eq]

theorem taken_snoc {events : List TraceEvent} {s : Site} :
    Taken moves place (events ++ [.pass s]) ↔
      Takes moves place s ∨ (Taken moves place events ∧ ¬ Renews place s) := since_snoc

/-- The flag is set at the declaration and at the writes that find the place moved; the moves that take
the value clear it. -/
structure Guards (f : Function) (moves : List SiteId) (place : Place) (b : Binding)
    (flag : DropFlag) : Prop where
  binding : f.binding? place.binding = some b
  owned : f.ownership b = .owned
  declSite : flag.declSite = f.declSite? b
  sets : ∃ r, f.placeStatesIn f.graph moves place = .ok r ∧
    ∀ {s : Site}, s ∈ f.allSites → ((∃ x ∈ flag.sets, x.site = s.id) ↔ s ∈ f.reinits r)
  clears : ∀ {s : Site}, s ∈ f.allSites → (flag.ClearsAt s ↔ Takes moves place s)

theorem mem_of_takes (wf : f.WellFormed) {moved : List Site}
    (hmoved : (sortInts moves).mapM f.getSite = .ok moved) {s : Site} (hs : s ∈ f.allSites)
    (h : Takes moves place s) :
    s ∈ (moved.filter (·.binding = some place.binding)).filter (·.reaches place) := by
  obtain ⟨hid, _, hn, hcov⟩ := h
  obtain ⟨t, ht, hget⟩ := exists_mem_of_mapM hmoved ((mem_sortBy _ _ _).2 hid)
  rw [getSite, optionOr_eq_ok, wf.site?_eq hs, Option.some.injEq] at hget
  subst hget
  rw [List.mem_filter, List.mem_filter, Site.reaches, hcov, hn]
  exact ⟨⟨ht, by simp⟩, by simp⟩

theorem Planned.guards (hp : f.Planned m settings plan) {d : DestructionPlan}
    (hd : plan.destruction.get? place = some d) (hguard : d.disposal = .guarded flag) :
    ∃ b, f.Guards plan.moves place b flag := by
  obtain ⟨_, b, plans, _, hb, hplans, hmem⟩ := hp.bindingPlans hd
  obtain ⟨howned, hneeds⟩ := owed_of_bindingPlans hplans hmem (by rw [hguard]; simp)
  obtain ⟨moved, x, hmoved, hplace, hdisposal, _⟩ := hp.placePlan hd hb howned hneeds
  obtain ⟨r, hr, hcase⟩ := of_placePlan hplace
  have hflag : flag = f.dropFlag b r.place
      ((moved.filter (·.binding = some place.binding)).filter (·.reaches place)) (f.reinits r) := by
    rw [hguard] at hdisposal
    rcases hcase with ⟨_, rfl⟩ | ⟨_, rfl⟩
    · cases hdisposal
    · simp only [disposalFromStates] at hdisposal
      split at hdisposal
      · cases hdisposal
      · split at hdisposal
        · cases hdisposal
        · exact Disposal.guarded.inj hdisposal
  rw [placeStates_place hr] at hflag
  subst hflag
  refine ⟨b, hb, howned, rfl, ⟨r, hr, fun {s} hs => ?_⟩, fun {s} hs => ?_⟩
  · refine ⟨?_, fun h => ⟨_, List.mem_map_of_mem h, rfl⟩⟩
    rintro ⟨y, hy, hid⟩
    obtain ⟨w, hw, rfl⟩ := List.mem_map.1 hy
    exact hp.wf.id_inj (mem_sitesOf.1 (List.mem_filter.1 hw).1).1 hs hid ▸ hw
  · constructor
    · rintro ⟨y, hy, hid⟩
      obtain ⟨w, hw, rfl⟩ := List.mem_map.1 hy
      obtain ⟨hall, htakes⟩ := takes_of_mem hp hmoved hb hw
      exact hp.wf.id_inj hall hs hid ▸ htakes
    · exact fun h => ⟨_, List.mem_map_of_mem (mem_of_takes hp.wf hmoved hs h), rfl⟩

theorem inRegion_of_declared (wf : f.WellFormed) (hone : f.DeclaredOnce) (hinside : f.DeclaredInside)
    (hb : f.binding? place.binding = some b) {es : List Edge} {c : BlockId}
    {events rest : List TraceEvent} {s : Site} (hw : f.Walk f.entry es c)
    (ht : f.trace f.entry es = events ++ .pass s :: rest) (h : Declared place b events) :
    b.inRegion s.block = true := by
  rcases h with hparam | ⟨before, x, after, rfl, hx, hstay⟩
  · rw [Binding.inRegion, hone.param_region hb hparam]
  · cases x with
    | enter id => cases hx
    | pass d =>
      obtain ⟨hn, hk⟩ := declares_iff.1 hx
      have ht' : f.trace f.entry es = before ++ .pass d :: (after ++ .pass s :: rest) := by simp [ht]
      rcases wf.block_of_between hw ht' with hblock | hmem
      · rw [hblock]
        exact hinside (mem_allSites_of_pass (by rw [ht']; simp)) hn hk hb
      · simpa [Outside] using hstay _ hmem

namespace Guards

theorem declSite_of_declares (hone : f.DeclaredOnce) (hg : f.Guards moves place b flag) {s : Site}
    (hs : s ∈ f.allSites) (hdecl : declares place.binding s = true) : flag.declSite = some s.id := by
  obtain ⟨hn, hk⟩ := declares_iff.1 hdecl
  obtain ⟨b', hb', hparam⟩ := hone.binding_of_decl hs hn hk
  rw [hg.binding, Option.some.injEq] at hb'
  subst hb'
  have hname := hone.keyed hg.binding
  have hcaptured : ¬ f.captures.contains b.name = true := by
    intro hc
    have howned := hg.owned
    rw [ownership, if_pos hc] at howned
    cases howned
  rw [hg.declSite, declSite?, hparam, if_neg (by simpa using hcaptured), hname]
  cases hfind : (f.sitesOf place.binding).find? (·.kind = .decl) with
  | none =>
    rw [List.find?_eq_none] at hfind
    exact absurd (by simpa using hk) (hfind s (mem_sitesOf.2 ⟨hs, hn⟩))
  | some t =>
    obtain ⟨hall, htn⟩ := mem_sitesOf.1 (List.mem_of_find?_eq_some hfind)
    have htk : t.kind = .decl := by simpa using List.find?_some hfind
    rw [hone.decl_unique hall hs htn htk hn hk]
    rfl

theorem decl_of_declSite (wf : f.WellFormed) (hg : f.Guards moves place b flag) {s : Site}
    (hs : s ∈ f.allSites) (h : flag.declSite = some s.id) :
    s.binding = some b.name ∧ s.kind = .decl := by
  rw [hg.declSite, declSite?] at h
  split at h
  · cases h
  · obtain ⟨t, hfind, hid⟩ := Option.map_eq_some_iff.1 h
    obtain ⟨hall, hn⟩ := mem_sitesOf.1 (List.mem_of_find?_eq_some hfind)
    rw [← wf.id_inj hall hs hid]
    exact ⟨hn, by simpa using List.find?_some hfind⟩

theorem write_of_sets (hg : f.Guards moves place b flag) {s : Site} (hs : s ∈ f.allSites)
    (h : ∃ x ∈ flag.sets, x.site = s.id) :
    s.binding = some place.binding ∧ s.kind = .write ∧ place.coveredBy s.path = true := by
  obtain ⟨r, hr, hsets⟩ := hg.sets
  have hmem := (hsets hs).1 h
  rw [reinits, placeStates_place hr, List.mem_filter, Bool.and_eq_true, Bool.and_eq_true,
    decide_eq_true_eq] at hmem
  exact ⟨(mem_sitesOf.1 hmem.1).2, hmem.2.1⟩

theorem kind_of_setsAt (wf : f.WellFormed) (hg : f.Guards moves place b flag) {s : Site}
    (hs : s ∈ f.allSites) (h : flag.SetsAt s) : s.kind = .decl ∨ s.kind = .write :=
  h.imp (fun hdecl => (hg.decl_of_declSite wf hs hdecl).2) fun hset => (hg.write_of_sets hs hset).2.1

theorem renews_of_setsAt (wf : f.WellFormed) (hone : f.DeclaredOnce) (hg : f.Guards moves place b flag) {s : Site}
    (hs : s ∈ f.allSites) (h : flag.SetsAt s) : Renews place s := by
  rcases h with hdecl | hset
  · obtain ⟨hn, hk⟩ := hg.decl_of_declSite wf hs hdecl
    exact ⟨hone.keyed hg.binding ▸ hn, .inl hk⟩
  · obtain ⟨hn, hwrites⟩ := hg.write_of_sets hs hset
    exact ⟨hn, .inr hwrites⟩

def Agree (f : Function) (moves : List SiteId) (place : Place) (b : Binding) (flag : DropFlag)
    (events : List TraceEvent) : Prop :=
  (f.conditionOn moves place b events = .valid ∧ ¬ Taken moves place events ∧ flag.On events) ∨
    (f.conditionOn moves place b events = .moved ∧ Taken moves place events ∧ ¬ flag.On events)

theorem agree_start (hg : f.Guards moves place b flag) (hparam : b.isParam = true) :
    Agree f moves place b flag [] := by
  refine .inl ⟨?_, not_since_nil, .inr ⟨?_, by simp⟩⟩
  · rw [conditionOn, List.foldl_nil, startCondition, hparam]
    rfl
  · rw [hg.declSite, declSite?, hparam]
    rfl

theorem agree_enter {events : List TraceEvent} {id : BlockId} (hin : b.inRegion id = true)
    (h : Agree f moves place b flag events) : Agree f moves place b flag (events ++ [.enter id]) := by
  have hcond : f.conditionOn moves place b (events ++ [.enter id]) =
      f.conditionOn moves place b events := by
    rw [conditionOn_append, List.foldl_cons, List.foldl_nil, conditionStep, if_pos hin]
  have htaken : Taken moves place (events ++ [.enter id]) ↔ Taken moves place events := by
    rw [Taken, since_snoc]
    simp [Taken]
  have hon : flag.On (events ++ [.enter id]) ↔ flag.On events := by
    rw [DropFlag.on_snoc]
    simp
  rw [Agree, hcond, htaken, hon]
  exact h

theorem agree_declare (hone : f.DeclaredOnce) (hinside : f.DeclaredInside) (hg : f.Guards moves place b flag)
    {events : List TraceEvent} {s : Site} (hs : s ∈ f.allSites)
    (hdecl : declares place.binding s = true) : Agree f moves place b flag (events ++ [.pass s]) := by
  obtain ⟨hn, hk⟩ := declares_iff.1 hdecl
  have hrenews : Renews place s := ⟨hn, .inl hk⟩
  have hin : b.inRegion s.block = true := hinside hs hn hk hg.binding
  left
  refine ⟨?_, ?_, ?_⟩
  · rw [conditionOn_append, List.foldl_cons, List.foldl_nil, conditionStep, if_pos hin,
      conditionAfter_of_renews hrenews]
  · rw [taken_snoc]
    rintro (htakes | ⟨_, hnot⟩)
    · exact not_renews_of_takes htakes hrenews
    · exact hnot hrenews
  · rw [DropFlag.on_snoc]
    exact .inl (.inl (hg.declSite_of_declares hone hs hdecl))

/-- A move clears the flag, and a write sets it again where the place was moved. -/
theorem agree_pass (wf : f.WellFormed) (hone : f.DeclaredOnce) (hg : f.Guards moves place b flag)
    {es : List Edge} {c : BlockId} (hw : f.Walk f.entry es c) {events rest : List TraceEvent} {s : Site}
    (ht : f.trace f.entry es = events ++ .pass s :: rest) (hs : s ∈ f.allSites)
    (hin : b.inRegion s.block = true) (hdecl : declares place.binding s = false)
    (h : Agree f moves place b flag events) : Agree f moves place b flag (events ++ [.pass s]) := by
  rw [Agree, taken_snoc, DropFlag.on_snoc, TraceEvent.at_pass, TraceEvent.at_pass, hg.clears hs,
    conditionOn_append, List.foldl_cons, List.foldl_nil, conditionStep, if_pos hin]
  by_cases htakes : Takes moves place s
  · right
    refine ⟨conditionAfter_of_takes htakes _, .inl htakes, ?_⟩
    · rintro (hset | ⟨_, hclear⟩)
      · exact not_renews_of_takes htakes (hg.renews_of_setsAt wf hone hs hset)
      · exact hclear htakes
  by_cases hrenews : Renews place s
  · rw [conditionAfter_of_renews hrenews]
    left
    refine ⟨rfl, fun h => h.elim htakes fun h => h.2 hrenews, ?_⟩
    -- a write over a live value leaves the flag alone; over a moved one it is among the set points
    rcases h with ⟨_, _, hon⟩ | ⟨hmoved, _, _⟩
    · exact .inr ⟨hon, htakes⟩
    · obtain ⟨hn, hk | ⟨hk, hcov⟩⟩ := hrenews
      · rw [declares_iff.2 ⟨hn, hk⟩] at hdecl
        cases hdecl
      · obtain ⟨r, hr, hsets⟩ := hg.sets
        have hmem := mem_reinits wf hg.binding hr hw ht hmoved hin hn hk hcov
        exact .inl (.inr ((hsets hs).2 hmem))
  · rw [conditionAfter_of_not htakes hrenews]
    have hset : ¬ flag.SetsAt s := fun h => hrenews (hg.renews_of_setsAt wf hone hs h)
    simpa [Agree, htakes, hrenews, hset] using h

/-- As long as the binding is declared, the flag holds just if the place is alive. -/
theorem agree_of_declared (wf : f.WellFormed) (hone : f.DeclaredOnce) (hinside : f.DeclaredInside)
    (hg : f.Guards moves place b flag) {es : List Edge} {c : BlockId} (hw : f.Walk f.entry es c)
    {events rest : List TraceEvent} (ht : f.trace f.entry es = events ++ rest)
    (h : Declared place b events) : Agree f moves place b flag events := by
  induction events using List.reverseRecOn generalizing rest with
  | nil => exact hg.agree_start (h.resolve_right not_since_nil)
  | append_singleton events x ih =>
    rw [List.append_assoc, List.singleton_append] at ht
    cases x with
    | enter id =>
      rcases h with hparam | h
      · have hin : b.inRegion id = true := by rw [Binding.inRegion, hone.param_region hg.binding hparam]
        exact agree_enter hin (ih ht (.inl hparam))
      · obtain ⟨h, hout⟩ := (since_snoc.1 h).resolve_left (by simp)
        exact agree_enter (by simpa [Outside] using hout) (ih ht (.inr h))
    | pass s =>
      have hs : s ∈ f.allSites := mem_allSites_of_pass (by rw [ht]; simp)
      cases hdecl : declares place.binding s with
      | true => exact hg.agree_declare hone hinside hs hdecl
      | false =>
        have hold : Declared place b events := by
          rcases h with hparam | h
          · exact .inl hparam
          · exact .inr ((since_snoc.1 h).resolve_left (by simp [hdecl])).1
        have hin := inRegion_of_declared wf hone hinside hg.binding hw ht hold
        exact hg.agree_pass wf hone hw ht hs hin hdecl (ih ht hold)

/-- The flag of a guarded place is exact at the end of a run unless it is stale. -/
theorem on_iff_live (wf : f.WellFormed) (hone : f.DeclaredOnce) (hinside : f.DeclaredInside)
    (hg : f.Guards moves place b flag) {es : List Edge} {c : BlockId} (hw : f.Walk f.entry es c) :
    (flag.On (f.trace f.entry es) ↔ Live moves place b (f.trace f.entry es)) ↔
      ¬ Stale flag place b (f.trace f.entry es) := by
  by_cases hdecl : Declared place b (f.trace f.entry es)
  · have hnot : ¬ Stale flag place b (f.trace f.entry es) := fun h => h.1 hdecl
    have ht : f.trace f.entry es = f.trace f.entry es ++ [] := by simp
    refine iff_of_true ?_ hnot
    rcases hg.agree_of_declared wf hone hinside hw ht hdecl with ⟨_, htaken, hon⟩ | ⟨_, htaken, hon⟩
    · exact iff_of_true hon ⟨hdecl, htaken⟩
    · exact iff_of_false hon fun h => h.2 htaken
  · -- a local that is not declared has no value, and its flag is off at the start of the run
    have hlive : ¬ Live moves place b (f.trace f.entry es) := fun h => hdecl h.1
    obtain ⟨s, hs, hn, hk⟩ : ∃ s ∈ f.allSites, s.binding = some place.binding ∧ s.kind = .decl := by
      refine hone.exists_decl hg.binding ?_ ?_
      · rw [← Bool.not_eq_true]
        exact fun hparam => hdecl (.inl hparam)
      · intro hmem
        have howned := hg.owned
        rw [ownership, if_pos (by simpa [hone.keyed hg.binding] using hmem)] at howned
        cases howned
    have hdeclSite := hg.declSite_of_declares hone hs (declares_iff.2 ⟨hn, hk⟩)
    have hon : flag.On (f.trace f.entry es) ↔ Stale flag place b (f.trace f.entry es) := by
      rw [DropFlag.On, Stale]
      simp [hdecl, hdeclSite]
    rw [iff_false_right hlive, hon]

end Guards

/-- Along every path of a run, the flag of a guarded place tells exactly whether the place holds a value,
unless the flag is stale: nothing clears it where a lifetime ends. Flags are kept by name, and a name
joins a place by dots, so that no other place may have one that reads the same. -/
theorem flag_exact_iff (hf : Produced f ∨ Construction.Makes f)
    (hplan : planFunction m settings f = .ok plan) (hx : plan.excluded = false)
    {d : DestructionPlan} (hd : plan.destruction.get? place = some d) (hguard : d.disposal = .guarded flag)
    (hname : ∀ g ∈ plan.flags, g.name = flag.name → g = flag) {es : List Edge} {c : BlockId}
    (hw : f.Walk f.entry es c) :
    ∃ b r, f.binding? place.binding = some b ∧
      f.runAlong plan f.lifetimeOrder f.entry es { flags := plan.initialFlags } = .ok r ∧
      ((r.flags.get? flag.name = some true ↔ Live plan.moves place b (f.trace f.entry es)) ↔
        ¬ Stale flag place b (f.trace f.entry es)) := by
  have hone : f.DeclaredOnce := hf.elim Produced.declaredOnce Construction.Makes.declaredOnce
  have hp := planned_of_planFunction hplan hx
  have hinside : f.DeclaredInside := declaredInside_of_planFunction hone.keyed hplan hx
  obtain ⟨b, hg⟩ := hp.guards hd hguard
  obtain ⟨r, hr⟩ := exists_runAlong (p := plan) hp.wf f.entry es { flags := plan.initialFlags }
  refine ⟨b, r, hg.binding, hr, ?_⟩
  rw [flags_runAlong hr, FunctionPlan.get?_flags_iff (FunctionPlan.mem_flags hd hguard) hname]
  exact hg.on_iff_live hp.wf hone hinside hw

def leftEarly : Function :=
  (Script.run .standard "f" .empty [.loop [] [.breakLoopIf 0, .declare "t" (.named "Str")]]).function

def leftEarlyPlan : FunctionPlan :=
  (planFunction (TypeModel.build .standard) {} leftEarly).toOption.getD default

theorem planFunction_leftEarly :
    planFunction (TypeModel.build .standard) {} leftEarly = .ok leftEarlyPlan :=
  eq_ok_of_isOk (by decide +kernel)

def leftEarlyLocal : Binding := { name := "t", type := 2, region := some [2, 4] }

def leftEarlyFlag : DropFlag := { name := "t.live", place := { binding := "t" }, declSite := some 0 }

def twoLaps : List Edge := [
  { src := 0, dst := 1 },
  { src := 1, dst := 2, kind := .onTrue },
  { src := 2, dst := 4, kind := .onFalse },
  { src := 4, dst := 1, kind := .back },
  { src := 1, dst := 2, kind := .onTrue }]

theorem flag_twoLaps :
    ∃ b r, leftEarly.binding? "t" = some b ∧
      leftEarly.runAlong leftEarlyPlan leftEarly.lifetimeOrder leftEarly.entry twoLaps
        { flags := leftEarlyPlan.initialFlags } = .ok r ∧
      ((r.flags.get? "t.live" = some true ↔
          Live leftEarlyPlan.moves { binding := "t" } b (leftEarly.trace leftEarly.entry twoLaps)) ↔
        ¬ Stale leftEarlyFlag { binding := "t" } b (leftEarly.trace leftEarly.entry twoLaps)) := by
  have hd : leftEarlyPlan.destruction.get? { binding := "t" } =
      some { type := 2, disposal := .guarded leftEarlyFlag, reason := .mixedExits } := by decide +kernel
  have hw : leftEarly.Walk leftEarly.entry twoLaps 2 := by decide +kernel
  exact flag_exact_iff (.inl (.script ..)) planFunction_leftEarly (by decide +kernel) hd rfl
    (by decide +kernel) hw

/-- The second lap leaves the region with the flag set and without a value. A run that takes it destroys
the local twice. -/
theorem flag_destroys_twice :
    Produced leftEarly ∧ leftEarly.validate (some (TypeModel.build .standard)) = .ok [] ∧
      planFunction (TypeModel.build .standard) {} leftEarly = .ok leftEarlyPlan ∧
      leftEarlyPlan.excluded = false ∧ leftEarly.binding? "t" = some leftEarlyLocal ∧
      leftEarlyPlan.destruction.get? { binding := "t" } =
        some { type := 2, disposal := .guarded leftEarlyFlag, reason := .mixedExits } ∧
      leftEarly.Walk leftEarly.entry twoLaps 2 ∧
      { block := 2, next := some 3 } ∈ leftEarly.scopeExits leftEarly.graph leftEarlyLocal ∧
      (leftEarly.runAlong leftEarlyPlan leftEarly.lifetimeOrder leftEarly.entry twoLaps
        { flags := leftEarlyPlan.initialFlags }).toOption.bind (·.flags.get? "t.live") = some true ∧
      ¬ Live leftEarlyPlan.moves { binding := "t" } leftEarlyLocal
        (leftEarly.trace leftEarly.entry twoLaps) ∧
      (leftEarly.run leftEarlyPlan (.ofList [(2, .visits [1, 0])]) 200).toOption.map Run.destroyed =
        some #[{ binding := "t" }, { binding := "t" }] := by
  refine ⟨.script .., ?_, planFunction_leftEarly, ?_, ?_, ?_, ?_, ?_, ?_, ?_, ?_⟩
  all_goals decide +kernel

end Function
end MovePlan
