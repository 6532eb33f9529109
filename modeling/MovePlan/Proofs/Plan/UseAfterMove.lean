import MovePlan.Proofs.Analysis.Modes
import MovePlan.Proofs.Plan.Accepted
import MovePlan.Proofs.Plan.Clean
import MovePlan.Proofs.Plan.Transfer

set_option autoImplicit false

namespace MovePlan

namespace Function
variable {f : Function} {m : TypeModel} {settings settings' : Settings} {facts facts' : LastUseFacts}
  {moves : List SiteId} {place : Place} {b : Binding} {name : String} {s : Site}

def TakenInside (moves : List SiteId) (place : Place) (b : Binding) (events : List TraceEvent) : Prop :=
  ∃ before v mid, events = before ++ .pass v :: mid ∧ Takes moves place v ∧
    b.inRegion v.block = true ∧ (∀ x, .enter x ∈ mid → b.inRegion x = true) ∧
    ∀ w, .pass w ∈ mid → b.inRegion w.block = true → ¬ Renews place w

theorem TakenInside.snoc {events : List TraceEvent} {x : TraceEvent}
    (h : TakenInside moves place b events) (henter : ∀ id, x = .enter id → b.inRegion id = true)
    (hpass : ∀ w, x = .pass w → b.inRegion w.block = true → ¬ Renews place w) :
    TakenInside moves place b (events ++ [x]) := by
  obtain ⟨before, v, mid, rfl, hv, hvin, hin, hrenew⟩ := h
  refine ⟨before, v, mid ++ [x], by simp, hv, hvin, fun y hy => ?_, fun w hw => ?_⟩
  · rcases List.mem_append.1 hy with hy | hy
    · exact hin y hy
    · exact henter y (List.mem_singleton.1 hy).symm
  · rcases List.mem_append.1 hw with hw | hw
    · exact hrenew w hw
    · exact hpass w (List.mem_singleton.1 hw).symm

theorem takenInside_of_moved {events : List TraceEvent}
    (h : f.conditionOn moves place b events = .moved) : TakenInside moves place b events := by
  induction events using List.reverseRecOn with
  | nil =>
    rw [conditionOn, List.foldl_nil, startCondition] at h
    split at h <;> cases h
  | append_singleton events x ih =>
    rw [conditionOn_append, List.foldl_cons, List.foldl_nil] at h
    cases x with
    | enter id =>
      rw [conditionStep] at h
      split at h
      next hin => exact (ih h).snoc (by simpa using hin) (by simp)
      next => cases h
    | pass w =>
      rw [conditionStep] at h
      split at h
      next hin =>
        by_cases htakes : Takes moves place w
        · exact ⟨events, w, [], rfl, htakes, hin, by simp, by simp⟩
        · by_cases hrenews : Renews place w
          · rw [conditionAfter_of_renews hrenews] at h
            cases h
          · rw [conditionAfter_of_not htakes hrenews] at h
            exact (ih h).snoc (by simp) (by simpa using fun _ => hrenews)
      next hout => exact (ih h).snoc (by simp) (by simp [hout])

/-- A run that comes to a site with the place moved has passed its last taker. Nothing has given the place a
value since, and the run has not left the region. -/
theorem lastTaker_of_moved (wf : f.WellFormed) {es : List Edge} {c : BlockId} {events after : List TraceEvent}
    (hw : f.Walk f.entry es c) (ht : f.trace f.entry es = events ++ .pass s :: after)
    (hmoved : f.conditionOn moves place b events = .moved) :
    ∃ before v mid, events = before ++ .pass v :: mid ∧ v ∈ f.allSites ∧ Takes moves place v ∧
      b.inRegion v.block = true ∧ (∀ x, .enter x ∈ mid → b.inRegion x = true) ∧
      ∀ w, .pass w ∈ mid → ¬ Renews place w := by
  obtain ⟨before, v, mid, rfl, hv, hvin, hinside, hrenew⟩ := takenInside_of_moved hmoved
  rw [List.append_assoc, List.cons_append] at ht
  refine ⟨before, v, mid, rfl, mem_allSites_of_pass (by rw [ht]; simp), hv, hvin, hinside, ?_⟩
  intro w hmem
  obtain ⟨m₁, m₂, rfl⟩ := List.append_of_mem hmem
  refine hrenew w hmem ?_
  have ht' : f.trace f.entry es = before ++ .pass v :: (m₁ ++ .pass w :: (m₂ ++ .pass s :: after)) := by
    simp [ht]
  rcases wf.block_of_between hw ht' with heq | henter
  · rw [heq]
    exact hvin
  · exact hinside _ (by simp [henter])

theorem get?_decisions (wf : f.WellFormed) {ds : OrderedMap SiteId UseDecision}
    (h : f.decisions m settings facts = .ok ds) {id : SiteId} {d : UseDecision} :
    ds.get? id = some d ↔ ∃ s ∈ f.allSites, s.kind ≠ .decl ∧ s.id = id ∧
      f.decideSite m settings facts s = .ok d := by
  obtain ⟨entries, hentries, heq⟩ := bind_eq_ok.1 h
  rw [pure_eq_ok] at heq
  have hentry : ∀ {id d}, (id, d) ∈ entries ↔ ∃ s ∈ f.allSites, s.kind ≠ .decl ∧ s.id = id ∧
      f.decideSite m settings facts s = .ok d := by
    intro id d
    constructor
    · intro hd
      obtain ⟨s, hs, hpair⟩ := mem_of_mapM hentries hd
      obtain ⟨d', hd', hpair⟩ := bind_eq_ok.1 hpair
      rw [pure_eq_ok, Prod.mk.injEq] at hpair
      obtain ⟨rfl, rfl⟩ := hpair
      obtain ⟨hs, hk⟩ := mem_decidedSites.1 hs
      exact ⟨s, hs, hk, rfl, hd'⟩
    · rintro ⟨s, hs, hk, rfl, hd⟩
      obtain ⟨p, hp, hpair⟩ := exists_mem_of_mapM hentries (mem_decidedSites.2 ⟨hs, hk⟩)
      rw [hd] at hpair
      obtain rfl : (s.id, d) = p := pure_eq_ok.1 hpair
      exact hp
  rw [← heq, OrderedMap.get?_ofList]
  constructor
  · exact fun hd => hentry.1 (mem_of_lastWrite hd)
  · intro hd
    refine lastWrite_eq_some (hentry.2 hd) fun w hw => ?_
    obtain ⟨s, hs, -, hid, hd⟩ := hd
    obtain ⟨t, ht, -, hid', hw⟩ := hentry.1 hw
    obtain rfl := wf.id_inj hs ht (hid.trans hid'.symm)
    exact Except.ok.inj (hw.symm.trans hd)

theorem mem_transferring_get? {ds : OrderedMap SiteId UseDecision} {id : SiteId} :
    id ∈ transferring ds ↔ ∃ d, ds.get? id = some d ∧ d.transfers = true := by
  simp only [transferring, List.mem_map, List.mem_filter, Prod.exists, exists_and_right, exists_eq_right,
    OrderedMap.get?_eq_some_iff]

theorem mem_transferring (wf : f.WellFormed) {ds : OrderedMap SiteId UseDecision}
    (h : f.decisions m settings facts = .ok ds) (hs : s ∈ f.allSites) :
    s.id ∈ transferring ds ↔
      ∃ d, f.decideSite m settings facts s = .ok d ∧ d.transfers = true := by
  rw [mem_transferring_get?]
  refine exists_congr fun d => and_congr_left fun ht => ?_
  rw [get?_decisions wf h]
  constructor
  · rintro ⟨t, ht, -, hid, hd⟩
    rwa [← wf.id_inj ht hs hid]
  · intro hd
    have hk := (of_decideSite hd ht).1
    exact ⟨s, hs, by simp [hk], rfl, hd⟩

structure HandsOver (f : Function) (m : TypeModel) (s : Site) : Prop where
  kind : s.kind = .moveOut
  target : ∃ t, s.target = some t ∧ f.returnsForwarded s t = false ∧ t.mode ≠ .plainRef ∧
    t.isForwardingCall = false
  type : ∃ type, f.siteType m s = .ok type ∧ m.isMoveCapable type = .ok true

theorem transfers_iff : (∃ d, f.decideSite m settings facts s = .ok d ∧ d.transfers = true) ↔
    f.HandsOver m s ∧ (f.verdict settings facts s).1 = true := by
  constructor
  · rintro ⟨d, h, ht⟩
    obtain ⟨hk, hv⟩ := of_decideSite h ht
    rw [decideSite, if_neg (not_not.2 hk)] at h
    obtain ⟨t, htarget, h⟩ := bind_eq_ok.1 h
    split at h
    · cases h
      cases ht
    next hreturn =>
    split at h
    · cases h
      cases ht
    next hmode =>
    split at h
    · cases h
      cases ht
    next hforward =>
    obtain ⟨type, htype, h⟩ := bind_eq_ok.1 h
    obtain ⟨capable, hcapable, h⟩ := bind_eq_ok.1 h
    split at h
    · cases h
      cases ht
    next hc =>
    rw [liftType_eq_ok] at hcapable
    exact ⟨⟨hk, ⟨t, optionOr_eq_ok.1 htarget, by simpa using hreturn, hmode, by simpa using hforward⟩,
      type, htype, by simpa [hcapable] using hc⟩, hv⟩
  · rintro ⟨⟨hk, ⟨t, htarget, hreturn, hmode, hforward⟩, type, htype, hcapable⟩, hv⟩
    refine ⟨{ kind := (t.passing (f.verdict settings facts s).1).1.toDecision,
              transfers := (t.passing (f.verdict settings facts s).1).2,
              reason := (f.verdict settings facts s).2 }, ?_, ?_⟩
    · rw [decideSite, if_neg (not_not.2 hk), htarget]
      simp only [optionOr, hreturn, hmode, hforward, htype, hcapable, liftType, bind, pure,
        Except.bind, Except.pure, Bool.false_eq_true, ↓reduceIte, Bool.not_true]
    rw [hv]
    cases hm : t.mode with
    | plainRef => exact absurd hm hmode
    | value => simp [Target.passing, hm, hforward]
    | moveRef => simp [Target.passing, hm, hforward]

theorem mem_transferring_iff (wf : f.WellFormed) {ds : OrderedMap SiteId UseDecision}
    (h : f.decisions m settings facts = .ok ds) (hs : s ∈ f.allSites) :
    s.id ∈ transferring ds ↔ f.HandsOver m s ∧ (f.verdict settings facts s).1 = true :=
  (mem_transferring wf h hs).trans transfers_iff

theorem ownedVerdict_iff : (ownedVerdict settings facts s).1 = true ↔
    if s.viaForward then settings.inlineForwarding = true ∧ facts.isMoveCandidate s.id = true
    else if s.explicit then facts.fieldBlocked? s.id = none
    else facts.isMoveCandidate s.id = true := by
  rw [ownedVerdict]
  cases s.viaForward with
  | true => cases h : settings.inlineForwarding && facts.isMoveCandidate s.id <;> simp_all
  | false =>
    cases s.explicit with
    | true => cases facts.fieldBlocked? s.id <;> simp
    | false =>
      cases hc : facts.isMoveCandidate s.id with
      | true => simp
      | false =>
        simp only [Bool.false_eq_true, ↓reduceIte, iff_false, Bool.not_eq_true]
        split
        · rfl
        · split <;> rfl

theorem explicit_of_not_candidate {b : Binding} (hn : s.binding = some name)
    (hb : f.binding? name = some b) (hv : (f.verdict settings facts s).1 = true)
    (hcandidate : facts.isMoveCandidate s.id ≠ true) : s.explicit = true ∧ s.viaForward = false := by
  have howned := (of_verdict hn hb hv).1
  rw [verdict, hn, Option.bind_some, hb, Option.map_some, howned] at hv
  rw [ownedVerdict_iff] at hv
  split at hv
  · exact absurd hv.2 hcandidate
  next hforward =>
  split at hv
  next hexplicit => exact ⟨hexplicit, by simpa using hforward⟩
  next => exact absurd hv hcandidate

/-- The last move before an access is no last use of the binding, so it is explicit. -/
theorem explicit_of_lastTaker (wf : f.WellFormed) {mode : LastUseMode} (h : f.lastUseFacts m mode = .ok facts)
    {ds : OrderedMap SiteId UseDecision} (hds : f.decisions m settings facts = .ok ds)
    (hb : f.binding? place.binding = some b) {es : List Edge} {c : BlockId}
    {before mid after : List TraceEvent} {v : Site} (hw : f.Walk f.entry es c)
    (ht : f.trace f.entry es = before ++ .pass v :: (mid ++ .pass s :: after))
    (hsn : s.binding = some place.binding) (ha : s.isAccess = true) (hv : Takes (transferring ds) place v)
    (hinside : ∀ x, .enter x ∈ mid → b.inRegion x = true) (hmid : ∀ w, .pass w ∈ mid → ¬ Renews place w) :
    f.HandsOver m v ∧ (f.verdict settings facts v).1 = true ∧ v.explicit = true ∧ v.viaForward = false := by
  obtain ⟨hvmem, hvk, hvn, -⟩ := hv
  have hvs : v ∈ f.allSites := mem_allSites_of_pass (by rw [ht]; simp)
  have hva : v.isAccess = true := by rw [Site.isAccess, hvk]; rfl
  have hused : f.UsedAfter place.binding b v := by
    refine usedAfter_of_trace wf hw ht hsn ha (fun w hw' => ?_) hinside
    have := hmid w hw'
    simp only [Renews, not_and, not_or] at this
    simpa [declares] using fun hwn => (this hwn).1
  have hnot : facts.isMoveCandidate v.id ≠ true := fun hcandidate =>
    not_usedAfter_of_lastUse wf h hvs hvn hb hva (facts.isLastUse_of_isMoveCandidate hcandidate) hused
  obtain ⟨hands, hverdict⟩ := (mem_transferring_iff wf hds hvs).1 hvmem
  exact ⟨hands, hverdict, explicit_of_not_candidate hvn hb hverdict hnot⟩

variable {plan : FunctionPlan}

theorem Inert.moves_eq_nil {ds : List Diagnostic} (h : Inert plan ds) : plan.moves = [] := by
  rw [List.eq_nil_iff_forall_not_mem]
  intro id hid
  obtain ⟨d, hd, ht⟩ := mem_moves.1 hid
  rw [h.transfers id d hd] at ht
  cases ht

/-- What a plan of a well-formed function without violating types makes of its decisions. -/
structure Judged (f : Function) (ds : OrderedMap SiteId UseDecision) (plan : FunctionPlan) : Prop where
  excluded : plan.excluded = true ↔ f.UsesMoved (transferring ds)
  transfers : plan.excluded = false → plan.moves = transferring ds
  keeps : plan.excluded = true → plan.moves = []

theorem judged_of_ownPlan (wf : f.WellFormed) {facts : LastUseFacts} {ds : OrderedMap SiteId UseDecision}
    (hds : f.decisions m settings facts = .ok ds) (h : f.ownPlan m settings facts = .ok plan) :
    f.Judged ds plan := by
  obtain ⟨ds', hds', h⟩ := bind_eq_ok.1 h
  obtain rfl : ds = ds' := Except.ok.inj (hds.symm.trans hds')
  obtain ⟨uses, huses, h⟩ := bind_eq_ok.1 h
  have hiff := hasErrors_checkUseAfterMove wf huses
  split at h
  next herr =>
    have hinert := inert_fallbackPlan h
    exact ⟨iff_of_true hinert.excluded (hiff.1 herr), fun hx => absurd hinert.excluded (by simp [hx]),
      fun _ => hinert.moves_eq_nil⟩
  next herr =>
    obtain ⟨_, _, h⟩ := bind_eq_ok.1 h
    obtain ⟨_, _, h⟩ := bind_eq_ok.1 h
    rw [pure_eq_ok] at h
    subst h
    exact ⟨iff_of_false (by simp) fun hu => herr (hiff.2 hu), fun _ => rfl, nofun⟩

/-- A value of a violating type excludes a well-formed function under all settings, and otherwise the
decisions do. -/
theorem bodyPlan_cases (hv : f.validate (some m) = .ok []) (h : f.bodyPlan m settings = .ok plan) :
    ∃ ws, f.violations m = .ok ws ∧ (ws ≠ [] → plan.excluded = true ∧ plan.moves = []) ∧
      (ws = [] → ∃ facts ds, f.lastUseFacts m settings.lastUseMode = .ok facts ∧
        f.decisions m settings facts = .ok ds ∧ f.Judged ds plan) := by
  obtain ⟨defects, hdefects, h⟩ := bind_eq_ok.1 h
  obtain rfl : [] = defects := Except.ok.inj (hv.symm.trans hdefects)
  rw [if_neg (by simp [hasErrors])] at h
  obtain ⟨ws, hws, h⟩ := bind_eq_ok.1 h
  refine ⟨ws, hws, fun hne => ?_, ?_⟩
  · rw [if_pos (by simpa using hne)] at h
    have hinert := inert_fallbackPlan h
    exact ⟨hinert.excluded, hinert.moves_eq_nil⟩
  · rintro rfl
    obtain ⟨facts, hfacts, h⟩ := bind_eq_ok.1 h
    obtain ⟨own, hown, h⟩ := bind_eq_ok.1 h
    rw [pure_eq_ok] at h
    subst h
    obtain ⟨ds, hds, -⟩ := bind_eq_ok.1 hown
    have hjudged := judged_of_ownPlan (wellFormed_of_validate hv rfl) hds hown
    exact ⟨facts, ds, liftType_eq_ok.1 hfacts, hds, hjudged.excluded, hjudged.transfers, hjudged.keeps⟩

end Function
end MovePlan
