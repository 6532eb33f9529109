import MovePlan.Proofs.Analysis.MoveState.Conditions

set_option autoImplicit false

namespace MovePlan

namespace Function
variable {f : Function} {moves : List SiteId} {place : Place} {b : Binding}

theorem conditionOn_append (xs ys : List TraceEvent) :
    f.conditionOn moves place b (xs ++ ys) =
      ys.foldl (conditionStep moves place b) (f.conditionOn moves place b xs) := by
  rw [conditionOn, List.foldl_append, conditionOn]

theorem foldl_conditionStep_moved {events : List TraceEvent}
    (hin : ∀ x, .enter x ∈ events → b.inRegion x = true)
    (hrenew : ∀ w, .pass w ∈ events → ¬ Renews place w) :
    events.foldl (conditionStep moves place b) .moved = .moved := by
  induction events with
  | nil => rfl
  | cons x events ih =>
    have hstep : conditionStep moves place b .moved x = .moved := by
      cases x with
      | enter id => rw [conditionStep, if_pos (hin id List.mem_cons_self)]
      | pass w =>
        have hafter : conditionAfter moves place w .moved = .moved := by
          by_cases htakes : Takes moves place w
          · exact conditionAfter_of_takes htakes _
          · exact conditionAfter_of_not htakes (hrenew w List.mem_cons_self) _
        rw [conditionStep, hafter, ite_self]
    rw [List.foldl_cons, hstep]
    exact ih (fun x hx => hin x (List.mem_cons_of_mem _ hx))
      fun w hw => hrenew w (List.mem_cons_of_mem _ hw)

/-- From a move on, a place stays moved until it gets a value again or the run leaves the region. -/
theorem conditionOn_of_takes {before mid : List TraceEvent} {u : Site} (hu : Takes moves place u)
    (huin : b.inRegion u.block = true) (hin : ∀ x, .enter x ∈ mid → b.inRegion x = true)
    (hrenew : ∀ w, .pass w ∈ mid → ¬ Renews place w) :
    f.conditionOn moves place b (before ++ .pass u :: mid) = .moved := by
  rw [conditionOn_append, List.foldl_cons, conditionStep, if_pos huin, conditionAfter_of_takes hu]
  exact foldl_conditionStep_moved hin hrenew

theorem foldl_conditionStep_pass {id : BlockId} {sites : List Site} (hin : b.inRegion id = true)
    (hsites : ∀ s ∈ sites, s.block = id) (c : Condition) :
    (sites.map .pass).foldl (conditionStep moves place b) c =
      sites.foldl (fun c s => conditionAfter moves place s c) c := by
  induction sites generalizing c with
  | nil => rfl
  | cons s sites ih =>
    have hs : b.inRegion s.block = true := by rw [hsites s List.mem_cons_self]; exact hin
    rw [List.map_cons, List.foldl_cons, List.foldl_cons, conditionStep, if_pos hs]
    exact ih (fun t ht => hsites t (List.mem_cons_of_mem _ ht)) _

theorem foldl_conditionStep_pass_outside {id : BlockId} {sites : List Site}
    (hout : b.inRegion id = false) (hsites : ∀ s ∈ sites, s.block = id) (c : Condition) :
    (sites.map .pass).foldl (conditionStep moves place b) c = c := by
  induction sites generalizing c with
  | nil => rfl
  | cons s sites ih =>
    have hs : ¬ b.inRegion s.block = true := by rw [hsites s List.mem_cons_self, hout]; simp
    rw [List.map_cons, List.foldl_cons, conditionStep, if_neg hs]
    exact ih (fun t ht => hsites t (List.mem_cons_of_mem _ ht)) _

theorem conditionOn_eventsAt (wf : f.WellFormed) (events : List TraceEvent) {id : BlockId}
    (hin : b.inRegion id = true) :
    f.conditionOn moves place b (events ++ f.eventsAt id) =
      (f.sitesAt id).foldl (fun c s => conditionAfter moves place s c)
        (f.conditionOn moves place b events) := by
  rw [conditionOn_append, eventsAt, List.foldl_cons, conditionStep, if_pos hin]
  exact foldl_conditionStep_pass hin (fun _ => wf.block) _

theorem conditionOn_outside (wf : f.WellFormed) (events : List TraceEvent) {id : BlockId}
    (hout : b.inRegion id = false) :
    f.conditionOn moves place b (events ++ f.eventsAt id) = .uninit := by
  rw [conditionOn_append, eventsAt, List.foldl_cons, conditionStep, if_neg (by simp [hout])]
  exact foldl_conditionStep_pass_outside hout (fun _ => wf.block) _

/-- Some run comes to the end of the block and leaves the place in the condition. -/
def Leaves (f : Function) (moves : List SiteId) (place : Place) (b : Binding) (id : BlockId)
    (c : Condition) : Prop :=
  ∃ es, f.Walk f.entry es id ∧ f.conditionOn moves place b (f.trace f.entry es) = c

/-- Some run comes to the start of the block with the place in the condition. -/
def Brings (f : Function) (moves : List SiteId) (place : Place) (b : Binding) (id : BlockId)
    (c : Condition) : Prop :=
  ∃ es, f.Walk f.entry es id ∧ f.conditionOn moves place b (f.approach f.entry es) = c

theorem leaves_of_brings (wf : f.WellFormed) {id : BlockId} (hin : b.inRegion id = true)
    {c : Condition} (h : f.Brings moves place b id c) :
    f.Leaves moves place b id
      ((f.sitesAt id).foldl (fun c s => conditionAfter moves place s c) c) := by
  obtain ⟨es, hw, rfl⟩ := h
  exact ⟨es, hw, by rw [trace_eq_approach hw, conditionOn_eventsAt wf _ hin]⟩

theorem exists_brings {id : BlockId} (h : f.Reached id) : ∃ c, f.Brings moves place b id c := by
  obtain ⟨es, hw⟩ := h.2
  exact ⟨_, es, hw, rfl⟩

theorem brings_iff {id : BlockId} {c : Condition} :
    f.Brings moves place b id c ↔ (id = f.entry ∧ f.startCondition place b = c) ∨
      ∃ p, id ∈ f.successors p ∧ f.Leaves moves place b p c := by
  constructor
  · rintro ⟨es, hw, hc⟩
    rcases List.eq_nil_or_concat es with rfl | ⟨es, e, rfl⟩
    · exact .inl ⟨hw.symm, hc⟩
    · rw [List.concat_eq_append] at hw hc
      obtain ⟨p, hes, he, rfl⟩ := walk_snoc.1 hw
      rw [approach_snoc] at hc
      exact .inr ⟨p, mem_successors.2 ⟨e, he, rfl⟩, es, hes, hc⟩
  · rintro (⟨rfl, hc⟩ | ⟨p, hp, es, hw, hc⟩)
    · exact ⟨[], rfl, hc⟩
    · obtain ⟨e, he, rfl⟩ := mem_successors.1 hp
      exact ⟨es ++ [e], walk_snoc.2 ⟨p, hw, he, rfl⟩, by rw [approach_snoc]; exact hc⟩

theorem has_statesAtEntry {out : BlockId → StateSet} {id : BlockId} {c : Condition} :
    (f.statesAtEntry f.graph place b out id).has c = true ↔
      (id = f.entry ∧ f.startCondition place b = c) ∨
        ∃ p ∈ f.graph.reachedPreds id,
          (if b.inRegion p then out p else StateSet.onlyUninit).has c = true := by
  rw [statesAtEntry, StateSet.has_foldl_union]
  refine or_congr_left ?_
  by_cases he : id = f.entry
  · rw [if_pos he, startCondition, and_iff_right he]
    split
    · rw [StateSet.has_onlyValid, eq_comm]
    · rw [StateSet.has_onlyUninit, eq_comm]
  · simp [he]

theorem statesStep_mono : Monotone (f.statesStep f.graph moves place b) := by
  intro x y h id
  simp only [statesStep]
  split
  · exact h id
  · split
    · exact le_refl _
    · refine statesAfterSites_mono (StateSet.le_iff.2 fun c => ?_)
      rw [has_statesAtEntry, has_statesAtEntry]
      rintro (hs | ⟨p, hp, hc⟩)
      · exact .inl hs
      · refine .inr ⟨p, hp, ?_⟩
        by_cases hin : b.inRegion p = true
        · rw [if_pos hin] at hc ⊢
          exact StateSet.le_iff.1 (h p) c hc
        · rw [if_neg hin] at hc ⊢
          exact hc

theorem statesAtEnd_rounds (f : Function) (moves : List SiteId) (place : Place) (b : Binding) :
    ∃ n ≤ 3 * f.graph.order.length, ValueTable.Rounds .empty (f.statesStep f.graph moves place b)
      f.graph.order (.fill f.graph.order fun _ => .empty) n (f.statesAtEnd f.graph moves place b) :=
  ValueTable.rounds_of_mono StateSet.rank_strictMono StateSet.rank_le statesStep_mono
    StateSet.empty_le (fun _ hk => hk) nodup_orderedBlocks

theorem statesAtEnd_fixed {id : BlockId} (h : f.hasBlock id = true) :
    (f.statesAtEnd f.graph moves place b).at? .empty id =
      f.statesStep f.graph moves place b ((f.statesAtEnd f.graph moves place b).at? .empty) id := by
  obtain ⟨_, _, hrounds⟩ := f.statesAtEnd_rounds moves place b
  exact hrounds.fixed (by simp) nodup_orderedBlocks id (mem_orderedBlocks.2 h)

theorem brings_of_statesAtEntry (wf : f.WellFormed) {out : BlockId → StateSet}
    (hout : ∀ p, f.Reached p → ∀ c, (out p).has c = true → f.Leaves moves place b p c)
    {id : BlockId} {c : Condition}
    (h : (f.statesAtEntry f.graph place b out id).has c = true) : f.Brings moves place b id c := by
  rw [brings_iff]
  rcases has_statesAtEntry.1 h with hs | ⟨p, hp, hc⟩
  · exact .inl hs
  · obtain ⟨⟨_, hsucc⟩, hreached⟩ := mem_reachedPreds.1 hp
    refine .inr ⟨p, hsucc, ?_⟩
    split at hc
    · exact hout p hreached c hc
    next hin =>
      rw [StateSet.has_onlyUninit] at hc
      obtain ⟨es, hw⟩ := hreached.2
      refine ⟨es, hw, ?_⟩
      rw [trace_eq_approach hw, conditionOn_outside wf _ (by simpa using hin), hc]

theorem leaves_of_statesAtEnd (wf : f.WellFormed) {id : BlockId} (hid : f.Reached id) {c : Condition}
    (h : ((f.statesAtEnd f.graph moves place b).at? .empty id).has c = true) :
    f.Leaves moves place b id c := by
  let P : BlockId → StateSet → Prop := fun id x =>
    f.Reached id → ∀ c, x.has c = true → f.Leaves moves place b id c
  have closed : ∀ x : BlockId → StateSet, (∀ k, P k (x k)) → ∀ k ∈ f.graph.order,
      P k (f.statesStep f.graph moves place b x k) := by
    intro x hx k _ hk c hc
    have hreached : f.graph.reached.contains k = true := reached_contains.2 hk
    simp only [statesStep, hreached, Bool.not_true, Bool.false_eq_true, ↓reduceIte] at hc
    split at hc
    next hin =>
      -- outside the region every run leaves the place uninitialised
      rw [StateSet.has_onlyUninit] at hc
      obtain ⟨es, hw⟩ := hk.2
      refine ⟨es, hw, ?_⟩
      rw [trace_eq_approach hw, conditionOn_outside wf _ (by simpa using hin), hc]
    next hin =>
      obtain ⟨c', hc', rfl⟩ := of_has_statesAfterSites (exists_brings hk)
        (fun d hd => brings_of_statesAtEntry wf hx hd) hc
      exact leaves_of_brings wf (by simpa using hin) hc'
  exact ValueTable.settle_induction (P := P) (fun _ _ _ h => by simp at h) (fun _ hk => hk) closed _ id
    hid c h

theorem statesAtEnd_of_walk (wf : f.WellFormed) {id : BlockId} {es : List Edge}
    (hw : f.Walk f.entry es id) :
    ((f.statesAtEnd f.graph moves place b).at? .empty id).has
      (f.conditionOn moves place b (f.trace f.entry es)) = true := by
  induction es using List.reverseRecOn generalizing id with
  | nil =>
    rw [walk_nil] at hw
    subst hw
    have hr : f.Reached f.entry := wf.reached (.refl _)
    rw [statesAtEnd_fixed hr.1]
    simp only [statesStep, reached_contains.2 hr, Bool.not_true, Bool.false_eq_true, ↓reduceIte]
    rw [trace_nil, ← List.nil_append (f.eventsAt f.entry)]
    split
    next hin => rw [conditionOn_outside wf _ (by simpa using hin), StateSet.has_onlyUninit]
    next hin =>
      rw [conditionOn_eventsAt wf _ (by simpa using hin)]
      exact has_statesAfterSites (has_statesAtEntry.2 (.inl ⟨rfl, rfl⟩))
  | append_singleton es e ih =>
    obtain ⟨p, hes, he, rfl⟩ := walk_snoc.1 hw
    have hr : f.Reached e.dst := wf.reached ⟨_, hw⟩
    rw [statesAtEnd_fixed hr.1, trace_snoc]
    simp only [statesStep, reached_contains.2 hr, Bool.not_true, Bool.false_eq_true, ↓reduceIte]
    split
    next hin => rw [conditionOn_outside wf _ (by simpa using hin), StateSet.has_onlyUninit]
    next hin =>
      rw [conditionOn_eventsAt wf _ (by simpa using hin)]
      refine has_statesAfterSites (has_statesAtEntry.2 (.inr ⟨p, ?_, ?_⟩))
      · exact mem_reachedPreds.2 ⟨⟨hr.1, mem_successors.2 ⟨e, he, rfl⟩⟩, wf.reached ⟨es, hes⟩⟩
      · split
        · exact ih hes
        next hp => simp [trace_eq_approach hes, conditionOn_outside wf _ (by simpa using hp)]

/-- The sets at the ends of the blocks hold the conditions of all runs, and no others. -/
theorem has_statesAtEnd (wf : f.WellFormed) {id : BlockId} (hid : f.Reached id) {c : Condition} :
    ((f.statesAtEnd f.graph moves place b).at? .empty id).has c = true ↔
      f.Leaves moves place b id c := by
  refine ⟨leaves_of_statesAtEnd wf hid, ?_⟩
  rintro ⟨es, hw, rfl⟩
  exact statesAtEnd_of_walk wf hw

theorem has_statesAtEntry_ends (wf : f.WellFormed) {id : BlockId} (hid : f.Reached id)
    {c : Condition} :
    (f.statesAtEntry f.graph place b ((f.statesAtEnd f.graph moves place b).at? .empty) id).has c =
      true ↔ f.Brings moves place b id c := by
  refine ⟨brings_of_statesAtEntry wf fun p hp c => leaves_of_statesAtEnd wf hp, ?_⟩
  rw [brings_iff, has_statesAtEntry]
  rintro (hs | ⟨p, hp, es, hw, rfl⟩)
  · exact .inl hs
  · refine .inr ⟨p, mem_reachedPreds.2 ⟨⟨hid.1, hp⟩, wf.reached ⟨es, hw⟩⟩, ?_⟩
    split
    · exact statesAtEnd_of_walk wf hw
    next hin => simp [trace_eq_approach hw, conditionOn_outside wf _ (by simpa using hin)]

theorem placeStates_place {g : BlockGraph} {r : PlaceStates}
    (h : f.placeStatesIn g moves place = .ok r) : r.place = place := by
  obtain ⟨b, _, h⟩ := bind_eq_ok.1 h
  rw [pure_eq_ok] at h
  rw [← h]

theorem mem_before {r : PlaceStates} (hb : f.binding? place.binding = some b)
    (h : f.placeStatesIn f.graph moves place = .ok r) {p : SiteId × StateSet} :
    p ∈ r.before ↔ ∃ id, f.Reached id ∧ b.inRegion id = true ∧ ∃ pre s post,
      f.sitesAt id = pre ++ s :: post ∧ s.binding = some place.binding ∧
      p = (s.id, pre.foldl (fun states s => stateAfterSite moves place s states)
        (f.statesAtEntry f.graph place b ((f.statesAtEnd f.graph moves place b).at? .empty) id)) := by
  obtain ⟨b', hb', h⟩ := bind_eq_ok.1 h
  rw [getBinding, optionOr_eq_ok, hb, Option.some.injEq] at hb'
  subst hb'
  rw [pure_eq_ok] at h
  rw [← h]
  simp only [List.mem_map, List.mem_flatMap, List.mem_filter, graph_order, mem_orderedBlocks,
    Bool.and_eq_true, reached_contains, mem_statesAlong]
  constructor
  · rintro ⟨q, ⟨id, ⟨_, hid, hin⟩, pre, s, post, hs, hn, rfl⟩, rfl⟩
    exact ⟨id, hid, hin, pre, s, post, hs, hn, rfl⟩
  · rintro ⟨id, hid, hin, pre, s, post, hs, hn, rfl⟩
    exact ⟨_, ⟨id, ⟨hid.1, hid, hin⟩, pre, s, post, hs, hn, rfl⟩, rfl⟩

theorem lastWrite_before (wf : f.WellFormed) {r : PlaceStates} (hb : f.binding? place.binding = some b)
    (h : f.placeStatesIn f.graph moves place = .ok r) {s : Site} {pre post : List Site}
    (hs : f.sitesAt s.block = pre ++ s :: post) (hn : s.binding = some place.binding)
    (hr : f.Reached s.block) (hin : b.inRegion s.block = true) :
    lastWrite s.id r.before = some (pre.foldl (fun states s => stateAfterSite moves place s states)
      (f.statesAtEntry f.graph place b ((f.statesAtEnd f.graph moves place b).at? .empty) s.block)) := by
  have hmem := (mem_before hb h).2 ⟨s.block, hr, hin, pre, s, post, hs, hn, rfl⟩
  refine lastWrite_eq_some hmem fun w hw => ?_
  obtain ⟨id, _, _, pre', t, post', ht, _, hp⟩ := (mem_before hb h).1 hw
  rw [Prod.mk.injEq] at hp
  have htmem : t ∈ f.sitesAt id := by simp [ht]
  obtain rfl := wf.id_inj (mem_allSites.2 ⟨s.block, by simp [hs]⟩) (mem_allSites.2 ⟨_, htmem⟩) hp.1
  obtain rfl : s.block = id := wf.block htmem
  obtain ⟨rfl, _⟩ := wf.split_unique hs ht
  exact hp.2

theorem setBefore_eq (wf : f.WellFormed) {r : PlaceStates} (hb : f.binding? place.binding = some b)
    (h : f.placeStatesIn f.graph moves place = .ok r) {s : Site} {pre post : List Site}
    (hs : f.sitesAt s.block = pre ++ s :: post) (hn : s.binding = some place.binding)
    (hr : f.Reached s.block) (hin : b.inRegion s.block = true) :
    r.setBefore s.id = pre.foldl (fun states s => stateAfterSite moves place s states)
      (f.statesAtEntry f.graph place b ((f.statesAtEnd f.graph moves place b).at? .empty) s.block) := by
  rw [PlaceStates.setBefore, lastWrite_before wf hb h hs hn hr hin, Option.getD_some]

theorem reached_of_before (wf : f.WellFormed) {r : PlaceStates} (hb : f.binding? place.binding = some b)
    (h : f.placeStatesIn f.graph moves place = .ok r) {s : Site} (hs : s ∈ f.allSites) {states : StateSet}
    (hw : lastWrite s.id r.before = some states) : f.Reached s.block ∧ b.inRegion s.block = true := by
  obtain ⟨id, hid, hin, _, t, _, ht, _, hp⟩ := (mem_before hb h).1 (mem_of_lastWrite hw)
  rw [Prod.mk.injEq] at hp
  have htmem : t ∈ f.sitesAt id := by simp [ht]
  rw [wf.id_inj hs (mem_allSites.2 ⟨_, htmem⟩) hp.1, wf.block htmem]
  exact ⟨hid, hin⟩

/-- Before a site inside the region the set holds the conditions of all runs that come to it. -/
theorem has_setBefore (wf : f.WellFormed) {r : PlaceStates} (hb : f.binding? place.binding = some b)
    (h : f.placeStatesIn f.graph moves place = .ok r) {s : Site} (hs : s ∈ f.allSites)
    (hn : s.binding = some place.binding) (hin : b.inRegion s.block = true) {c : Condition} :
    (r.setBefore s.id).has c = true ↔ ∃ es d before after, f.Walk f.entry es d ∧
      f.trace f.entry es = before ++ .pass s :: after ∧ f.conditionOn moves place b before = c := by
  obtain ⟨pre, post, hsplit⟩ := List.append_of_mem (wf.mem_sitesAt hs)
  have hblocks : ∀ t ∈ pre, t.block = s.block := fun t ht => wf.block (by simp [hsplit, ht])
  have hbefore : ∀ events, f.conditionOn moves place b (events ++ .enter s.block :: pre.map .pass) =
      pre.foldl (fun c s => conditionAfter moves place s c) (f.conditionOn moves place b events) := by
    intro events
    rw [conditionOn_append, List.foldl_cons, conditionStep, if_pos hin,
      foldl_conditionStep_pass hin hblocks]
  constructor
  · intro hc
    have hr : f.Reached s.block := by
      cases hw : lastWrite s.id r.before with
      | none =>
        rw [PlaceStates.setBefore, hw, Option.getD_none, StateSet.has_empty] at hc
        cases hc
      | some x => exact (reached_of_before wf hb h hs hw).1
    rw [setBefore_eq wf hb h hsplit hn hr hin] at hc
    obtain ⟨_, ⟨es, hw, rfl⟩, hc⟩ := of_has_statesAfterSites (exists_brings hr)
      (fun d hd => (has_statesAtEntry_ends wf hr).1 hd) hc
    have ht := trace_of_site [] hw hsplit
    rw [List.append_nil] at ht
    exact ⟨es, s.block, _, _, hw, ht, by rw [hbefore, hc]⟩
  · rintro ⟨es, d, before, after, hw, ht, rfl⟩
    obtain ⟨es₁, es₂, id, pre', post', rfl, h₁, _, hsites, rfl, _⟩ := trace_split_pass hw ht
    obtain rfl : s.block = id := wf.block (by simp [hsites])
    obtain ⟨rfl, _⟩ := wf.split_unique hsplit hsites
    have hr : f.Reached s.block := wf.reached ⟨_, h₁⟩
    rw [setBefore_eq wf hb h hsplit hn hr hin, hbefore]
    exact has_statesAfterSites ((has_statesAtEntry_ends wf hr).2 ⟨_, h₁, rfl⟩)

end Function
end MovePlan
