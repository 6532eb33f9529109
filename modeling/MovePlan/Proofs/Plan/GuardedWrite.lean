import MovePlan.Proofs.Plan.Disposal

set_option autoImplicit false

/-!
# Writes that ask a flag

A write over a place that may or may not hold a value asks the flag of the nearest guarded place that
contains it. There may be no such place, and the flag follows the place that it was made for. So the
flag tells the truth about the destination up to the first event that changes the value there and leaves
the flag as it is.
-/
namespace MovePlan
open TraceEvent (At)

/-- The state of a switch that events of one kind turn on and events of another kind turn off. -/
def Switched (start : Prop) (on off : TraceEvent → Prop) (events : List TraceEvent) : Prop :=
  Since on off events ∨ (start ∧ ∀ x ∈ events, ¬ off x)

section Switched
variable {start : Prop} {on off : TraceEvent → Prop} {events : List TraceEvent}

theorem switched_nil : Switched start on off [] ↔ start := by
  simp [Switched, not_since_nil]

theorem switched_snoc {x : TraceEvent} :
    Switched start on off (events ++ [x]) ↔ on x ∨ (Switched start on off events ∧ ¬ off x) := by
  simp only [Switched, since_snoc, List.forall_mem_append, List.forall_mem_singleton]
  tauto

theorem not_switched_iff (hapart : ∀ x, on x → ¬ off x) :
    ¬ Switched start on off events ↔ Since off on events ∨ (¬ start ∧ ∀ x ∈ events, ¬ on x) := by
  induction events using List.reverseRecOn with
  | nil => simp [switched_nil, not_since_nil]
  | append_singleton events x ih =>
    rw [switched_snoc, since_snoc, List.forall_mem_append, List.forall_mem_singleton, ← and_assoc, not_or,
      not_and_not_right]
    have hx := hapart x
    tauto

section Twins
variable {start' : Prop} {on' off' : TraceEvent → Prop}

def TurnedOnSince (on off on' : TraceEvent → Prop) (events : List TraceEvent) : Prop :=
  ∃ before x after, events = before ++ x :: after ∧ off x ∧ (∀ y ∈ after, ¬ on y) ∧ ∃ y ∈ x :: after, on' y

theorem off_of_disagree (hapart : ∀ x, on x → ¬ off x) (h : Switched start' on' off' events)
    (h' : ¬ Switched start on off events) :
    Since (fun x => off x ∧ ¬ off' x) on events ∨ (¬ start ∧ ∀ x ∈ events, ¬ on x) ∨
      TurnedOnSince on off on' events := by
  rcases (not_switched_iff hapart).1 h' with ⟨before, x, after, rfl, hx, hafter⟩ | hnever
  · by_cases hset : ∃ y ∈ x :: after, on' y
    · exact .inr (.inr ⟨before, x, after, rfl, hx, hafter, hset⟩)
    · refine .inl ⟨before, x, after, rfl, ⟨hx, fun hx' => ?_⟩, hafter⟩
      -- the first switch would be off as well
      have hunset : ∀ y ∈ x :: after, ¬ on' y := fun y hy hon => hset ⟨y, hy, hon⟩
      rcases h with hsince | ⟨-, hnone⟩
      · exact not_since_of_after (hunset x List.mem_cons_self) hx'
          (fun y hy => hunset y (List.mem_cons_of_mem _ hy)) hsince
      · exact hnone x (by simp) hx'
  · exact .inr (.inl hnever)

theorem since_off_of_turnedOnSince (h : TurnedOnSince on off on' events) : Since off on events := by
  obtain ⟨before, x, after, rfl, hx, hafter, -⟩ := h
  exact ⟨before, x, after, rfl, hx, hafter⟩

theorem on_of_disagree (hoff : ∀ x ∈ events, off' x → off x) (h : ¬ Switched start' on' off' events)
    (h' : Switched start on off events) :
    Since (fun x => on x ∧ ¬ on' x) off events ∨ (start ∧ ∀ x ∈ events, ¬ off x) := by
  rcases h' with ⟨before, x, after, rfl, hx, hafter⟩ | hkept
  · refine .inl ⟨before, x, after, rfl, ⟨hx, fun hx' => h (.inl ?_)⟩, hafter⟩
    exact ⟨before, x, after, rfl, hx', fun y hy hy' => hafter y hy (hoff y (by simp [hy]) hy')⟩
  · exact .inr hkept

/-- A switch that is turned off only when another one is agrees with it, unless one of them was last turned
alone. -/
theorem switched_agree_iff (hoff : ∀ x ∈ events, off' x → off x)
    (hapart : ∀ x, on x → ¬ off x) :
    (Switched start' on' off' events ↔ Switched start on off events) ↔
      ¬ (Switched start' on' off' events ∧
          (Since (fun x => off x ∧ ¬ off' x) on events ∨ (¬ start ∧ ∀ x ∈ events, ¬ on x) ∨
            TurnedOnSince on off on' events)) ∧
        ¬ (¬ Switched start' on' off' events ∧
          (Since (fun x => on x ∧ ¬ on' x) off events ∨ (start ∧ ∀ x ∈ events, ¬ off x))) := by
  constructor
  · intro hiff
    constructor
    · rintro ⟨hs, hlost⟩
      refine (not_switched_iff hapart).2 ?_ (hiff.1 hs)
      rcases hlost with ⟨before, x, after, rfl, hx, hafter⟩ | hnever | hset
      · exact .inl ⟨before, x, after, rfl, hx.1, hafter⟩
      · exact .inr hnever
      · exact .inl (since_off_of_turnedOnSince hset)
    · rintro ⟨hs, ⟨before, x, after, rfl, hx, hafter⟩ | hkept⟩
      · exact hs (hiff.2 (.inl ⟨before, x, after, rfl, hx.1, hafter⟩))
      · exact hs (hiff.2 (.inr hkept))
  · rintro ⟨hlost, hgained⟩
    constructor
    · intro hs
      by_contra hs'
      exact hlost ⟨hs, off_of_disagree hapart hs hs'⟩
    · intro hs'
      by_contra hs
      exact hgained ⟨hs, on_of_disagree hoff hs hs'⟩

end Twins
end Switched

namespace Function
variable {f : Function} {m : TypeModel} {settings : Settings} {plan : FunctionPlan}
  {moves : List SiteId} {place : Place} {b : Binding} {flag : DropFlag}

/-- The place loses its value: the run leaves the region, or a move takes it. -/
def Ends (moves : List SiteId) (place : Place) (b : Binding) (x : TraceEvent) : Prop :=
  Outside b x ∨ At (Takes moves place) x

theorem not_supplied_before (wf : f.WellFormed) {es : List Edge} {c : BlockId} (hw : f.Walk f.entry es c)
    {before after : List TraceEvent} {s : Site} (ht : f.trace f.entry es = before ++ .pass s :: after)
    (hout : b.inRegion s.block = false) : ¬ f.Supplied place b before := by
  obtain ⟨es₁, _, id, pre, post, _, _, _, hsites, rfl, _⟩ := trace_split_pass hw ht
  have hblock : ∀ t ∈ s :: pre, t.block = id := fun t ht => wf.block (by
    rw [hsites, List.mem_append, List.mem_cons]
    exact (List.mem_cons.1 ht).elim (fun h => .inr (.inl h)) .inl)
  rw [hblock s List.mem_cons_self] at hout
  exact not_supplied_outside hout fun t ht => hblock t (List.mem_cons_of_mem _ ht)

/-- Whether a place holds a value is a matter of the last event that brought or ended one. -/
theorem holds_iff_switched (wf : f.WellFormed) {es : List Edge} {c : BlockId} (hw : f.Walk f.entry es c)
    {events rest : List TraceEvent} (ht : f.trace f.entry es = events ++ rest) :
    f.Holds moves place b events ↔
      Switched (f.Given place b) (At (Supplies place b)) (Ends moves place b) events := by
  induction events using List.reverseRecOn generalizing rest with
  | nil => simp [Holds, Supplied, Taken, not_since_nil, switched_nil]
  | append_singleton events x ih =>
    rw [List.append_assoc, List.singleton_append] at ht
    rw [switched_snoc, ← ih ht, Holds, Holds, supplied_snoc]
    cases x with
    | enter id =>
      have htaken : Taken moves place (events ++ [.enter id]) ↔ Taken moves place events := by
        simp [Taken, since_snoc]
      rw [htaken]
      simp only [Ends, TraceEvent.at_enter, or_false, false_or]
      tauto
    | pass s =>
      rw [taken_snoc]
      simp only [Ends, Outside, TraceEvent.at_pass, false_or, not_false_eq_true, and_true]
      by_cases htakes : Takes moves place s
      · have hnot : ¬ Supplies place b s := fun h => not_renews_of_takes htakes h.1
        simp [htakes, hnot]
      by_cases hrenews : Renews place s
      · cases hin : b.inRegion s.block with
        | true => simp [Supplies, htakes, hrenews, hin]
        | false =>
          have hold : ¬ f.Supplied place b events := not_supplied_before wf hw ht hin
          simp [Supplies, hin, hold]
      · simp [Supplies, htakes, hrenews]

/-- The flag is on, but since a value last came the place has lost it in a way that the flag does not
follow, or the flag was set again later. -/
def Overstates (f : Function) (flag : DropFlag) (moves : List SiteId) (place : Place) (b : Binding)
    (events : List TraceEvent) : Prop :=
  flag.On events ∧
    (Since (fun x => Ends moves place b x ∧ ¬ At flag.ClearsAt x) (At (Supplies place b)) events ∨
      (¬ f.Given place b ∧ ∀ x ∈ events, ¬ At (Supplies place b) x) ∨
      TurnedOnSince (At (Supplies place b)) (Ends moves place b) (At flag.SetsAt) events)

/-- The flag is off, but since a value last went the place has got one in a way that the flag does not
follow, or the place has kept the value that it was given. -/
def Understates (f : Function) (flag : DropFlag) (moves : List SiteId) (place : Place) (b : Binding)
    (events : List TraceEvent) : Prop :=
  ¬ flag.On events ∧
    (Since (fun x => At (Supplies place b) x ∧ ¬ At flag.SetsAt x) (Ends moves place b) events ∨
      (f.Given place b ∧ ∀ x ∈ events, ¬ Ends moves place b x))

instance (moves : List SiteId) (place : Place) (b : Binding) : DecidablePred (Ends moves place b) :=
  fun x => inferInstanceAs (Decidable (Outside b x ∨ At (Takes moves place) x))

instance (flag : DropFlag) : DecidablePred flag.On := fun events =>
  inferInstanceAs (Decidable (Since (At flag.SetsAt) (At flag.ClearsAt) events ∨
    (flag.declSite = none ∧ ∀ x ∈ events, ¬ At flag.ClearsAt x)))

/-- The guarded place `guard` contains `place`. -/
def Contains (guard place : Place) : Prop :=
  guard.binding = place.binding ∧ place.coveredBy guard.path = true

theorem takes_of_contains {guard : Place} (h : Contains guard place) {s : Site}
    (hs : Takes moves guard s) : Takes moves place s := by
  refine ⟨hs.1, hs.2.1, h.1 ▸ hs.2.2.1, ?_⟩
  exact List.isPrefixOf_iff_prefix.2 ((List.isPrefixOf_iff_prefix.1 hs.2.2.2).trans
    (List.isPrefixOf_iff_prefix.1 h.2))

namespace Guards
variable {guard : Place}

/-- A flag tells whether a part of its place holds a value, unless the last change of the part's value
was one that the flag does not follow. -/
theorem on_iff_holds (wf : f.WellFormed) (hg : f.Guards moves guard b flag) (hc : Contains guard place)
    {es : List Edge} {c : BlockId} (hw : f.Walk f.entry es c) {events rest : List TraceEvent}
    (ht : f.trace f.entry es = events ++ rest) :
    (flag.On events ↔ f.Holds moves place b events) ↔
      ¬ f.Overstates flag moves place b events ∧ ¬ f.Understates flag moves place b events := by
  rw [holds_iff_switched wf hw ht]
  have hall : ∀ {s : Site}, .pass s ∈ events → s ∈ f.allSites := fun hs =>
    mem_allSites_of_pass (by rw [ht]; exact List.mem_append_left _ hs)
  refine switched_agree_iff (fun x hx hclear => ?_) fun x hx hends => ?_
  · cases x with
    | enter id => cases hclear
    | pass s => exact .inr (takes_of_contains hc ((hg.clears (hall hx)).1 hclear))
  · cases x with
    | enter id => cases hx
    | pass s => exact hends.elim id fun htakes => not_renews_of_takes htakes hx.1

theorem on_iff_holds_of_declared (wf : f.WellFormed) (hone : f.DeclaredOnce) (hinside : f.DeclaredInside)
    (hg : f.Guards moves place b flag) {es : List Edge} {c : BlockId} (hw : f.Walk f.entry es c)
    {events rest : List TraceEvent} {s : Site} (ht : f.trace f.entry es = events ++ .pass s :: rest)
    (h : Declared place b events) : flag.On events ↔ f.Holds moves place b events := by
  rw [← (tracks_before wf hw ht).valid_iff]
  rcases hg.agree_of_declared wf hone hinside hw ht h with ⟨hvalid, _, hon⟩ | ⟨hmoved, _, hon⟩
  · exact iff_of_true hon hvalid
  · refine iff_of_false hon ?_
    rw [hmoved]
    decide

end Guards

/-- A guarded place contains `place`, and no guarded place with a longer path does. -/
structure NearestGuard (destruction : OrderedMap Place DestructionPlan) (place guard : Place)
    (flag : DropFlag) : Prop where
  plan : ∃ d, destruction.get? guard = some d ∧ d.disposal = .guarded flag
  contains : Contains guard place
  nearest : ∀ q d g, destruction.get? q = some d → d.disposal = .guarded g → Contains q place →
    q.path.length ≤ guard.path.length

theorem Contains.ext {p q : Place} (hp : Contains p place) (hq : Contains q place)
    (hlength : p.path.length = q.path.length) : p = q := by
  have hpath := List.prefix_of_prefix_length_le (List.isPrefixOf_iff_prefix.1 hp.2)
    (List.isPrefixOf_iff_prefix.1 hq.2) hlength.le
  rw [Place.mk.injEq]
  exact ⟨hp.1.trans hq.1.symm, hpath.eq_of_length hlength⟩

def Best (entries : List (Place × DestructionPlan)) (place : Place) : Option (Place × DropFlag) → Prop
  | none => ∀ q d g, (q, d) ∈ entries → d.disposal = .guarded g → ¬ Contains q place
  | some (guard, flag) => (∃ d, (guard, d) ∈ entries ∧ d.disposal = .guarded flag) ∧
      Contains guard place ∧ ∀ q d g, (q, d) ∈ entries → d.disposal = .guarded g → Contains q place →
        q.path.length ≤ guard.path.length

theorem Best.skip {entries : List (Place × DestructionPlan)} {best : Option (Place × DropFlag)}
    (h : Best entries place best) {e : Place × DestructionPlan}
    (he : ∀ g, e.2.disposal = .guarded g → ¬ Contains e.1 place) :
    Best (entries ++ [e]) place best := by
  have hold : ∀ {q d g}, (q, d) ∈ entries ++ [e] → d.disposal = .guarded g → Contains q place →
      (q, d) ∈ entries := by
    intro q d g hmem hg hc
    rcases List.mem_append.1 hmem with hmem | hmem
    · exact hmem
    · obtain rfl := List.mem_singleton.1 hmem
      exact absurd hc (he g hg)
  cases best with
  | none => exact fun q d g hmem hg hc => h q d g (hold hmem hg hc) hg hc
  | some best =>
    obtain ⟨⟨d, hd, hguard⟩, hc, hmax⟩ := h
    exact ⟨⟨d, List.mem_append_left _ hd, hguard⟩, hc,
      fun q d g hmem hg hq => hmax q d g (hold hmem hg hq) hg hq⟩

theorem Best.replace {entries : List (Place × DestructionPlan)} {e : Place × DestructionPlan}
    (hguard : e.2.disposal = .guarded flag) (hc : Contains e.1 place)
    (hmax : ∀ q d g, (q, d) ∈ entries → d.disposal = .guarded g → Contains q place →
      q.path.length ≤ e.1.path.length) : Best (entries ++ [e]) place (some (e.1, flag)) := by
  refine ⟨⟨e.2, List.mem_append_right _ (List.mem_singleton.2 rfl), hguard⟩, hc, ?_⟩
  intro q d g hmem hg hq
  rcases List.mem_append.1 hmem with hmem | hmem
  · exact hmax q d g hmem hg hq
  · obtain rfl := List.mem_singleton.1 hmem
    exact le_rfl

theorem exists_best (place : Place) (destruction : OrderedMap Place DestructionPlan) :
    ∃ best, Best destruction.entries place best ∧
      coveringFlag place destruction = best.map (·.2.name) := by
  refine ⟨_, ?_, rfl⟩
  induction destruction.entries using List.reverseRecOn with
  | nil => exact fun q d g hmem => absurd hmem List.not_mem_nil
  | append_singleton entries e ih =>
    rw [List.foldl_append, List.foldl_cons, List.foldl_nil]
    generalize entries.foldl _ none = best at ih ⊢
    cases hflag : e.2.disposal with
    | always => exact ih.skip fun g hg => by rw [hflag] at hg; cases hg
    | never => exact ih.skip fun g hg => by rw [hflag] at hg; cases hg
    | guarded flag =>
      simp only [Disposal.flag?]
      split
      next hout =>
        refine ih.skip fun g _ hc => ?_
        simp [hc.1, hc.2] at hout
      next hin =>
        have hc : Contains e.1 place := by
          simpa [Contains] using hin
        cases best with
        | none => exact .replace hflag hc fun q d g hmem hg hq => absurd hq (ih q d g hmem hg)
        | some best =>
          obtain ⟨hold, hcold, hmax⟩ := ih
          simp only
          split
          next hlonger =>
            exact .replace hflag hc fun q d g hmem hg hq =>
              (hmax q d g hmem hg hq).trans (Nat.le_of_lt hlonger)
          next hshorter =>
            obtain ⟨d, hd, hguard⟩ := hold
            refine ⟨⟨d, List.mem_append_left _ hd, hguard⟩, hcold, fun q d' g hmem hg hq => ?_⟩
            rcases List.mem_append.1 hmem with hmem | hmem
            · exact hmax q d' g hmem hg hq
            · obtain rfl := List.mem_singleton.1 hmem
              exact Nat.le_of_not_lt hshorter

/-- The flag that a write asks is that of the nearest guarded place around its destination. -/
theorem coveringFlag_eq_some_iff {destruction : OrderedMap Place DestructionPlan} {n : String} :
    coveringFlag place destruction = some n ↔
      ∃ guard flag, NearestGuard destruction place guard flag ∧ flag.name = n := by
  obtain ⟨best, hbest, heq⟩ := exists_best place destruction
  rw [heq]
  have hfound : ∀ {q d}, destruction.get? q = some d ↔ (q, d) ∈ destruction.entries :=
    OrderedMap.get?_eq_some_iff _ _ _
  constructor
  · intro hname
    obtain ⟨⟨guard, flag⟩, rfl, rfl⟩ := Option.map_eq_some_iff.1 hname
    obtain ⟨⟨d, hd, hguard⟩, hc, hmax⟩ := hbest
    exact ⟨guard, flag, ⟨⟨d, hfound.2 hd, hguard⟩, hc, fun q d g hq => hmax q d g (hfound.1 hq)⟩, rfl⟩
  · rintro ⟨guard, flag, hnear, rfl⟩
    obtain ⟨d, hd, hguard⟩ := hnear.plan
    have hmem := hfound.1 hd
    cases best with
    | none => exact absurd hnear.contains (hbest guard d flag hmem hguard)
    | some best =>
      obtain ⟨⟨d', hd', hguard'⟩, hc, hmax⟩ := hbest
      have hd' := hfound.2 hd'
      have hle := hnear.nearest _ _ _ hd' hguard' hc
      have hsame := hc.ext hnear.contains (hle.antisymm (hmax _ _ _ hmem hguard hnear.contains))
      rw [hsame, hd, Option.some.injEq] at hd'
      rw [← hd', hguard, Disposal.guarded.injEq] at hguard'
      rw [Option.map_some, hguard']

theorem Planned.assign (hp : f.Planned m settings plan) {s : Site} (hs : s ∈ f.allSites)
    {a : AssignPlan} (ha : plan.assigns.get? s.id = some a) :
    s.kind = .write ∧ s.binding = some a.place.binding ∧ s.path = a.place.path ∧
      ∃ b r needs, f.binding? a.place.binding = some b ∧
        f.placeStatesIn f.graph plan.moves a.place = .ok r ∧ a.destState = r.stateBefore s.id ∧
        a.dispose = disposeOld needs a.destState ∧
        a.flag = if a.dispose = .guarded then coveringFlag a.place plan.destruction else none := by
  obtain ⟨entries, hentries, hmap⟩ := bind_eq_ok.1 hp.assigns
  rw [pure_eq_ok] at hmap
  rw [← hmap, OrderedMap.get?_ofList] at ha
  obtain ⟨e, he, heq⟩ := List.mem_filterMap.1 (mem_of_lastWrite ha)
  obtain rfl : e = some (s.id, a) := heq
  obtain ⟨t, ht, h⟩ := mem_of_mapM hentries he
  obtain ⟨hall, hk⟩ := List.mem_filter.1 ht
  cases hn : t.binding with
  | none =>
    rw [hn] at h
    cases h
  | some name =>
    rw [hn] at h
    obtain ⟨b, hb, h⟩ := bind_eq_ok.1 h
    rw [getBinding, optionOr_eq_ok] at hb
    cases hleaf : m.leafType? b t.path with
    | none =>
      simp only [hleaf] at h
      cases h
    | some leaf =>
      simp only [hleaf] at h
      obtain ⟨relevant, _, h⟩ := bind_eq_ok.1 h
      cases relevant with
      | false => cases h
      | true =>
        obtain ⟨r, hr, h⟩ := bind_eq_ok.1 h
        obtain ⟨needs, _, h⟩ := bind_eq_ok.1 h
        obtain ⟨_, _, h⟩ := bind_eq_ok.1 h
        rw [pure_eq_ok, Option.some.injEq, Prod.mk.injEq] at h
        obtain ⟨hid, rfl⟩ := h
        obtain rfl := hp.wf.id_inj hall hs hid
        exact ⟨by simpa using hk, hn, rfl, b, r, needs, hb, hr, rfl, rfl, rfl⟩

theorem maybe_of_disposeOld {needs : Bool} {state : MoveState} (h : disposeOld needs state = .guarded) :
    state = .maybe := by
  cases needs <;> cases state <;> first | rfl | cases h

/-- On a run, the flag of the nearest guarded place agrees with the place just if nothing changed the value
alone. -/
theorem Planned.flag_iff_holds (hp : f.Planned m settings plan)
    (hnames : ∀ g ∈ plan.flags, ∀ g' ∈ plan.flags, g.name = g'.name → g = g') {place : Place} {b : Binding}
    (hb : f.binding? place.binding = some b) {guard : Place} {flag : DropFlag}
    (hnear : NearestGuard plan.destruction place guard flag) :
    flag ∈ plan.flags ∧ ∀ {es c before s after}, f.Walk f.entry es c →
      f.trace f.entry es = before ++ .pass s :: after →
      (((before.foldl plan.flagsAfter plan.initialFlags).get? flag.name = some true ↔
          f.Holds plan.moves place b before) ↔
        ¬ f.Overstates flag plan.moves place b before ∧
          ¬ f.Understates flag plan.moves place b before) := by
  obtain ⟨d, hd, hdisposal⟩ := hnear.plan
  have hmem := FunctionPlan.mem_flags hd hdisposal
  obtain ⟨b', hg⟩ := hp.guards hd hdisposal
  have hb' := hg.binding
  rw [hnear.contains.1, hb, Option.some.injEq] at hb'
  subst hb'
  refine ⟨hmem, fun hw ht => ?_⟩
  rw [FunctionPlan.get?_flags_iff hmem fun g hmem' => hnames g hmem' flag hmem]
  exact hg.on_iff_holds hp.wf hnear.contains hw ht

/-- The write asks a flag of the plan, and on every run that comes to the write the flag is true just
before it if and only if the destination holds a value there. -/
def Tells (f : Function) (plan : FunctionPlan) (s : Site) (a : AssignPlan) (b : Binding) : Prop :=
  ∃ flag ∈ plan.flags, a.flag = some flag.name ∧
    ∀ es c before after, f.Walk f.entry es c → f.trace f.entry es = before ++ .pass s :: after →
      ((before.foldl plan.flagsAfter plan.initialFlags).get? flag.name = some true ↔
        f.Holds plan.moves a.place b before)

/-- A guarded write comes from two runs, one with a value in the destination and one without. The flag
that it asks tells them apart just if some guarded place contains the destination, and if on no run the
value last came or went there without the flag of the nearest such place. -/
theorem guardedWrite_tells_iff (hplan : planFunction m settings f = .ok plan)
    (hx : plan.excluded = false)
    (hnames : ∀ g ∈ plan.flags, ∀ g' ∈ plan.flags, g.name = g'.name → g = g') {s : Site}
    (hs : s ∈ f.allSites) {a : AssignPlan} (ha : plan.assigns.get? s.id = some a)
    (hguard : a.dispose = .guarded) :
    ∃ b, f.binding? a.place.binding = some b ∧
      f.DisagreeBefore plan.moves a.place b s ∧
      (f.Tells plan s a b ↔ ∃ guard flag, NearestGuard plan.destruction a.place guard flag ∧
        ∀ es c before after, f.Walk f.entry es c → f.trace f.entry es = before ++ .pass s :: after →
          ¬ f.Overstates flag plan.moves a.place b before ∧
            ¬ f.Understates flag plan.moves a.place b before) := by
  have hp := planned_of_planFunction hplan hx
  obtain ⟨_, hn, _, b, r, needs, hb, hr, hstate, hdispose, hflag⟩ := hp.assign hs ha
  have hmaybe : r.stateBefore s.id = .maybe :=
    hstate ▸ maybe_of_disposeOld (hdispose.symm.trans hguard)
  rw [if_pos hguard] at hflag
  refine ⟨b, hb, disagreeBefore_of_maybe hp.wf hb hr hs hn hmaybe, ?_⟩
  constructor
  · rintro ⟨flag, hmem, hasked, htells⟩
    obtain ⟨guard, flag', hnear, hname⟩ := coveringFlag_eq_some_iff.1 (hflag.symm.trans hasked)
    obtain ⟨hmem', hexact⟩ := hp.flag_iff_holds hnames hb hnear
    obtain rfl := hnames flag' hmem' flag hmem hname
    exact ⟨guard, flag', hnear, fun es c before after hw ht =>
      (hexact hw ht).1 (htells es c before after hw ht)⟩
  · rintro ⟨guard, flag, hnear, hquiet⟩
    obtain ⟨hmem, hexact⟩ := hp.flag_iff_holds hnames hb hnear
    refine ⟨flag, hmem, hflag.trans (coveringFlag_eq_some_iff.2 ⟨guard, flag, hnear, rfl⟩),
      fun es c before after hw ht => ?_⟩
    exact (hexact hw ht).2 (hquiet es c before after hw ht)

def refilled : Function :=
  (Script.run .standard "f" .empty [
    .param "x" (.named "Str") .value false,
    .branchThen [
      .moveOut (.place "x") (some (.argument "g" 0 .value false false)) true false],
    .access .write "x",
    .ret .value []]).function

def refilledPlan : FunctionPlan :=
  (planFunction (TypeModel.build .standard) {} refilled).toOption.getD default

theorem planFunction_refilled : planFunction (TypeModel.build .standard) {} refilled = .ok refilledPlan :=
  eq_ok_of_isOk (by decide +kernel)

def refilledParam : Binding := { name := "x", type := 2, isParam := true }

def refilledFlag : DropFlag where
  name := "x.live"
  place := { binding := "x" }
  declSite := none
  clears := [{ site := 0, block := 1 }]
  sets := [{ site := 1, block := 3 }]

def refill : Site := { id := 1, block := 3, index := 0, kind := .write, binding := some "x" }

def refillPlan : AssignPlan where
  place := { binding := "x" }
  order := .destroyThenConstruct
  destState := .maybe
  dispose := .guarded
  flag := some "x.live"
  sourceSite := none

/-- The flag of the parameter tells the write what it finds. -/
theorem guardedWrite_refilled :
    refilled.binding? "x" = some refilledParam ∧
      refilled.DisagreeBefore refilledPlan.moves { binding := "x" } refilledParam refill ∧
      refilled.Tells refilledPlan refill refillPlan refilledParam := by
  have hx : refilledPlan.excluded = false := by decide +kernel
  have hb : refilled.binding? "x" = some refilledParam := by decide +kernel
  have hd : refilledPlan.destruction.get? { binding := "x" } =
      some { type := 2, disposal := .guarded refilledFlag, reason := .mixedExits } := by
    decide +kernel
  obtain ⟨b, hb', hdisagree, htells⟩ := guardedWrite_tells_iff planFunction_refilled hx
    (by decide +kernel) (s := refill) (by decide +kernel) (a := refillPlan) (by decide +kernel) rfl
  obtain rfl : refilledParam = b := Option.some.inj (hb.symm.trans hb')
  refine ⟨hb, hdisagree, htells.2 ⟨{ binding := "x" }, refilledFlag, ?_, ?_⟩⟩
  · exact
      { plan := ⟨_, hd, rfl⟩
        contains := ⟨rfl, rfl⟩
        nearest := fun q _ _ _ _ hq => (List.isPrefixOf_iff_prefix.1 hq.2).length_le }
  · intro es c before after hw ht
    have hp := planned_of_planFunction planFunction_refilled hx
    obtain ⟨b, hg⟩ := hp.guards hd rfl
    obtain rfl : refilledParam = b := Option.some.inj (hb.symm.trans hg.binding)
    have hone : refilled.DeclaredOnce := (Produced.script ..).declaredOnce
    have hinside : refilled.DeclaredInside := declaredInside_of_planFunction hone.keyed planFunction_refilled hx
    have hagree := hg.on_iff_holds_of_declared hp.wf hone hinside hw ht (.inl rfl)
    exact (hg.on_iff_holds hp.wf ⟨rfl, rfl⟩ hw ht).1 hagree

/-- The parameter is moved again after the write, so that it owes nothing at the return. -/
def movedAgain : Function :=
  (Script.run .standard "f" .empty [
    .param "x" (.named "Str") .value false,
    .branchThen [
      .moveOut (.place "x") (some (.argument "g" 0 .value false false)) true false],
    .access .write "x",
    .moveOut (.place "x") (some (.argument "g" 0 .value false false)) true false,
    .ret .value []]).function

def movedAgainPlan : FunctionPlan :=
  (planFunction (TypeModel.build .standard) {} movedAgain).toOption.getD default

theorem planFunction_movedAgain :
    planFunction (TypeModel.build .standard) {} movedAgain = .ok movedAgainPlan :=
  eq_ok_of_isOk (by decide +kernel)

/-- Since no end of the lifetime owes anything, nothing guards the parameter, and the guarded write has no
flag to ask. -/
theorem guardedWrite_unflagged :
    Produced movedAgain ∧ movedAgain.validate (some (TypeModel.build .standard)) = .ok [] ∧
      planFunction (TypeModel.build .standard) {} movedAgain = .ok movedAgainPlan ∧
      movedAgainPlan.excluded = false ∧ movedAgainPlan.diagnostics = [] ∧ refill ∈ movedAgain.allSites ∧
      movedAgainPlan.assigns.get? refill.id = some { refillPlan with flag := none } ∧
      movedAgainPlan.flags = [] := by
  refine ⟨.script .., ?_, planFunction_movedAgain, ?_, ?_, ?_, ?_, ?_⟩
  all_goals decide +kernel

end Function
end MovePlan
