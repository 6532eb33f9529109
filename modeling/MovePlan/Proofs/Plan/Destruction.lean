import MovePlan.Proofs.Plan.Destruction.Places

set_option autoImplicit false

namespace MovePlan
namespace Function
variable {f : Function} {m : TypeModel} {settings : Settings} {plan : FunctionPlan}
  {moves : List SiteId} {place : Place} {b : Binding}

theorem of_anyDominates {d : Dominators} {exits : List ScopeExit} {sites : List Site}
    (h : f.anyDominates d b exits sites = .ok true) :
    ∃ s ∈ sites, f.dominatesExits d b s exits = .ok true := by
  induction sites with
  | nil => cases h
  | cons s sites ih =>
    obtain ⟨first, hfirst, h⟩ := bind_eq_ok.1 h
    cases first with
    | true => exact ⟨s, List.mem_cons_self, hfirst⟩
    | false =>
      obtain ⟨t, ht, hdom⟩ := ih h
      exact ⟨t, List.mem_cons_of_mem _ ht, hdom⟩

theorem of_dominatesExits {d : Dominators} {s : Site} {exits : List ScopeExit}
    (h : f.dominatesExits d b s exits = .ok true) :
    (∀ x ∈ exits, d.dominates s.block x.block = true) ∧ ∃ blk, f.block? s.block = some blk ∧
      (∀ w ∈ entriesFrom blk.sites (s.index + 1), declares b.name w = false) ∧
      ∀ id ∈ f.visitInside b (f.edgeCount + blk.edges.length + 1) (blk.successors.filter b.inRegion) [],
        ∀ w ∈ f.sitesAt id, declares b.name w = false := by
  rw [dominatesExits] at h
  split at h
  next => cases h
  next hall =>
  refine ⟨by simpa using hall, ?_⟩
  obtain ⟨blk, hblk, h⟩ := bind_eq_ok.1 h
  rw [getBlock, optionOr_eq_ok] at hblk
  split at h
  next => cases h
  next hblock =>
  rw [pure_eq_ok] at h
  refine ⟨blk, hblk, by simpa using hblock, by simpa using h⟩

/-- The search for a later declaration comes to every block that the move leads to inside the region. -/
theorem mem_visitInside_of_walk {id c : BlockId} {blk : Block} (hblk : f.block? id = some blk)
    {es : List Edge} (hne : es ≠ []) (hw : f.Walk id es c) (hc : f.hasBlock c = true)
    (hin : ∀ e ∈ es, b.inRegion e.dst = true) :
    c ∈ f.visitInside b (f.edgeCount + blk.edges.length + 1) (blk.successors.filter b.inRegion) [] := by
  obtain ⟨e, es, rfl⟩ := List.exists_cons_of_ne_nil hne
  have hlen : (blk.successors.filter b.inRegion).length ≤ blk.edges.length := by
    simpa [Block.successors] using List.length_filter_le b.inRegion blk.successors
  have hstart : e.dst ∈ blk.successors.filter b.inRegion := by
    rw [List.mem_filter, Block.successors, ← edgesAt_eq hblk]
    exact ⟨List.mem_map_of_mem hw.1, hin e List.mem_cons_self⟩
  exact (mem_visitInside_iff (by omega)).2 ⟨hc, e.dst, hstart, es, hw.2,
    fun x hx => hin x (List.mem_cons_of_mem _ hx)⟩

theorem not_declares_after (wf : f.WellFormed) {d : Dominators} {s : Site}
    {exits : List ScopeExit} (h : f.dominatesExits d b s exits = .ok true) {a c : BlockId}
    {es : List Edge} {before after : List TraceEvent} (hw : f.Walk a es c)
    (ht : f.trace a es = before ++ .pass s :: after)
    (hin : ∀ x, .enter x ∈ after → b.inRegion x = true) {w : Site} (hmem : .pass w ∈ after) :
    declares b.name w = false := by
  obtain ⟨_, blk, hblk, hblock, hlater⟩ := of_dominatesExits h
  obtain ⟨es₁, es₂, id, pre, post, rfl, _, h₂, hsites, _, hafter⟩ := trace_split_pass hw ht
  obtain rfl : s.block = id := wf.block (by simp [hsites])
  subst hafter
  rcases List.mem_append.1 hmem with hpost | hpath
  · obtain ⟨t, ht', heq⟩ := List.mem_map.1 hpost
    rw [TraceEvent.pass.injEq] at heq
    subst heq
    have hindex : s.index = (pre.length : ℤ) := wf.index (by rw [hsites]; simp)
    rw [sitesAt_eq hblk] at hsites
    refine hblock t ?_
    have hlength : (s.index + 1).toNat = pre.length + 1 := by omega
    have hpos : 0 ≤ s.index + 1 := by omega
    rw [entriesFrom, if_pos hpos, hlength, hsites]
    simpa using ht'
  · obtain ⟨e, he, hwe⟩ := List.mem_flatMap.1 hpath
    have hregion : ∀ x ∈ es₂, b.inRegion x.dst = true := fun x hx =>
      hin x.dst (List.mem_append_right _ (List.mem_flatMap.2 ⟨x, hx, mem_eventsAt_enter.2 rfl⟩))
    refine hlater e.dst ?_ w (mem_eventsAt_pass.1 hwe)
    obtain ⟨es₃, es₄, rfl⟩ := List.append_of_mem he
    obtain ⟨p, h₃, he', _⟩ := walk_append.1 h₂
    refine mem_visitInside_of_walk hblk (by simp) (walk_snoc.2 ⟨p, h₃, he', rfl⟩) (wf.target he') fun x hx =>
      hregion x ?_
    rcases List.mem_append.1 hx with hx | hx
    · exact List.mem_append_left _ hx
    · rw [List.mem_singleton] at hx
      simp [hx]

theorem mem_reinits (wf : f.WellFormed) {r : PlaceStates} (hb : f.binding? place.binding = some b)
    (h : f.placeStatesIn f.graph moves place = .ok r) {w : Site} {es : List Edge} {c : BlockId}
    {before after : List TraceEvent} (hw : f.Walk f.entry es c)
    (ht : f.trace f.entry es = before ++ .pass w :: after)
    (hmoved : f.conditionOn moves place b before = .moved) (hin : b.inRegion w.block = true)
    (hn : w.binding = some place.binding) (hk : w.kind = .write)
    (hcov : place.coveredBy w.path = true) : w ∈ f.reinits r := by
  have hall : w ∈ f.allSites := mem_allSites_of_pass (by rw [ht]; simp)
  have hset : (r.setBefore w.id).has .moved = true :=
    (has_setBefore wf hb h hall hn hin).2 ⟨es, c, before, after, hw, ht, hmoved⟩
  have hplace : r.place = place := placeStates_place h
  rw [reinits, hplace, List.mem_filter]
  refine ⟨mem_sitesOf.2 ⟨hall, hn⟩, ?_⟩
  rw [Bool.and_eq_true, Bool.and_eq_true, decide_eq_true_eq, Bool.or_eq_true, decide_eq_true_eq,
    decide_eq_true_eq]
  exact ⟨⟨hk, hcov⟩, StateSet.summary_of_moved hset⟩

theorem not_renews_after (wf : f.WellFormed) {r : PlaceStates}
    (hb : f.binding? place.binding = some b) (hname : b.name = place.binding)
    (h : f.placeStatesIn f.graph moves place = .ok r)
    (hreinits : f.reinits r = []) {d : Dominators} {s : Site} {exits : List ScopeExit}
    (hdom : f.dominatesExits d b s exits = .ok true) {es : List Edge} {c : BlockId}
    {before after mid rest : List TraceEvent} (hw : f.Walk f.entry es c)
    (ht : f.trace f.entry es = before ++ .pass s :: after) (hsin : b.inRegion s.block = true)
    (hin : ∀ x, .enter x ∈ after → b.inRegion x = true) {w : Site}
    (hsplit : after = mid ++ .pass w :: rest)
    (hmoved : f.conditionOn moves place b (before ++ .pass s :: mid) = .moved) :
    ¬ Renews place w := by
  rintro ⟨hn, hk | ⟨hk, hcov⟩⟩
  · have hdecl := not_declares_after wf hdom hw ht hin (show .pass w ∈ after by simp [hsplit])
    simp [declares, hname, hn, hk] at hdecl
  · have ht' : f.trace f.entry es = before ++ .pass s :: (mid ++ .pass w :: rest) := by
      rw [ht, hsplit]
    have hwin : b.inRegion w.block = true := by
      rcases wf.block_of_between hw ht' with hblock | hmem
      · exact hblock ▸ hsin
      · exact hin _ (by rw [hsplit]; simp [hmem])
    have hat : f.trace f.entry es = (before ++ .pass s :: mid) ++ .pass w :: rest := by simp [ht']
    have hmem := mem_reinits wf hb h hw hat hmoved hwin hn hk hcov
    rw [hreinits] at hmem
    cases hmem

/-- From a dominating move on, the place stays moved as long as the run stays in the region. -/
theorem moved_after_dominating (wf : f.WellFormed) {r : PlaceStates}
    (hb : f.binding? place.binding = some b) (hname : b.name = place.binding)
    (h : f.placeStatesIn f.graph moves place = .ok r)
    (hreinits : f.reinits r = []) {d : Dominators} {s : Site} {exits : List ScopeExit}
    (hdom : f.dominatesExits d b s exits = .ok true) (hs : Takes moves place s)
    {es : List Edge} {c : BlockId} {before after : List TraceEvent} (hw : f.Walk f.entry es c)
    (ht : f.trace f.entry es = before ++ .pass s :: after) (hsin : b.inRegion s.block = true)
    (hin : ∀ x, .enter x ∈ after → b.inRegion x = true) :
    f.conditionOn moves place b (f.trace f.entry es) = .moved := by
  -- each write is ruled out by the place being moved before it, so the run is taken event by event
  have hrenew : ∀ mid rest, after = mid ++ rest → ∀ w, .pass w ∈ mid → ¬ Renews place w := by
    intro mid
    induction mid using List.reverseRecOn with
    | nil => simp
    | append_singleton mid x ih =>
      intro rest hsplit w hmem
      have hold := ih (x :: rest) (by simp [hsplit])
      rcases List.mem_append.1 hmem with hmem | hmem
      · exact hold w hmem
      · obtain rfl := List.mem_singleton.1 hmem
        have hstay : ∀ y, .enter y ∈ mid → b.inRegion y = true :=
          fun y hy => hin y (by simp [hsplit, hy])
        exact not_renews_after wf hb hname h hreinits hdom hw ht hsin hin (by simpa using hsplit)
          (conditionOn_of_takes hs hsin hstay hold)
  rw [ht]
  exact conditionOn_of_takes hs hsin hin (hrenew after [] (by simp))

/-- A run passes a move, later comes into the region from outside, and ends a lifetime there with the
value alive without having passed the move again. -/
def AliveOnReturn (f : Function) (moves : List SiteId) (place : Place) (b : Binding) : Prop :=
  ∃ es₁ p e es₂, ∃ x ∈ f.scopeExits f.graph b, ∃ s, f.Walk f.entry es₁ p ∧ b.inRegion p = false ∧
    e ∈ f.edgesAt p ∧ f.Walk e.dst es₂ x.block ∧
    (∀ y, .enter y ∈ f.trace e.dst es₂ → b.inRegion y = true) ∧
    Takes moves place s ∧ .pass s ∈ f.trace f.entry es₁ ∧ .pass s ∉ f.trace e.dst es₂ ∧
    (f.trace e.dst es₂).foldl (conditionStep moves place b) .uninit = .valid

theorem conditionOn_return (wf : f.WellFormed) {es₁ es₂ : List Edge} {p : BlockId} {e : Edge}
    (hw : f.Walk f.entry es₁ p) (hout : b.inRegion p = false) :
    f.conditionOn moves place b (f.trace f.entry (es₁ ++ e :: es₂)) =
      (f.trace e.dst es₂).foldl (conditionStep moves place b) .uninit := by
  rw [trace_append_cons, conditionOn_append, trace_eq_approach hw, conditionOn_outside wf _ hout]

theorem leaves_of_aliveOnReturn (wf : f.WellFormed) (h : f.AliveOnReturn moves place b) :
    ∃ x ∈ f.scopeExits f.graph b, f.Leaves moves place b x.block .valid := by
  obtain ⟨es₁, p, e, es₂, x, hx, s, h₁, hout, he, h₂, _, _, _, _, hvalid⟩ := h
  refine ⟨x, hx, es₁ ++ e :: es₂, walk_append.2 ⟨p, h₁, he, h₂⟩, ?_⟩
  rw [conditionOn_return wf h₁ hout, hvalid]

/-- If a dominating move stands in the way of every end of the lifetime, a value can be alive there
only after a return to the region. -/
theorem aliveOnReturn_of_leaves (wf : f.WellFormed) {r : PlaceStates}
    (hb : f.binding? place.binding = some b) (hname : b.name = place.binding)
    (h : f.placeStatesIn f.graph moves place = .ok r)
    (hreinits : f.reinits r = []) {s : Site}
    (hdom : f.dominatesExits f.dominators b s (r.exitStates.map Prod.fst) = .ok true)
    (hs : Takes moves place s) (hall : s ∈ f.allSites) {x : ScopeExit} (hx : x ∈ f.scopeExits f.graph b)
    (hleaves : f.Leaves moves place b x.block .valid) : f.AliveOnReturn moves place b := by
  obtain ⟨es, hw, hvalid⟩ := hleaves
  obtain ⟨⟨hr, hxin⟩, _⟩ := mem_scopeExits.1 hx
  have hexit : x ∈ r.exitStates.map Prod.fst := by
    have hmem : (x, ((f.statesAtEnd f.graph moves place b).at? .empty x.block).summary) ∈ r.exitStates :=
      (mem_exitStates hb h).2 ⟨hx, rfl⟩
    exact List.mem_map_of_mem hmem
  have hpass : .pass s ∈ f.trace f.entry es :=
    pass_of_enter ((dominates_iff hr).1 ((of_dominatesExits hdom).1 x hexit) es hw)
      (wf.mem_sitesAt hall)
  -- in the stay that ends here the move cannot have been passed
  have hnot : b.inRegion s.block = true → ∀ before after,
      f.trace f.entry es = before ++ .pass s :: after →
      ¬ ∀ y, .enter y ∈ after → b.inRegion y = true := by
    intro hsin before after ht hin
    rw [moved_after_dominating wf hb hname h hreinits hdom hs hw ht hsin hin] at hvalid
    cases hvalid
  rcases walk_lastStay b.inRegion hw hxin with hstay | ⟨es₁, e, es₂, p, rfl, h₁, hout, he, h₂, hstay⟩
  · obtain ⟨before, after, ht⟩ := List.append_of_mem hpass
    obtain ⟨id, hid, hsid⟩ := enter_of_pass hpass
    have hsin : b.inRegion s.block = true := by rw [wf.block hsid]; exact hstay id hid
    exact absurd (fun y hy => hstay y (by rw [ht]; simp [hy])) (hnot hsin before after ht)
  · have hlast : .pass s ∉ f.trace e.dst es₂ := by
      intro hmem
      obtain ⟨before, after, ht⟩ := List.append_of_mem hmem
      obtain ⟨id, hid, hsid⟩ := enter_of_pass hmem
      have hsin : b.inRegion s.block = true := by rw [wf.block hsid]; exact hstay id hid
      exact hnot hsin (f.trace f.entry es₁ ++ before) after (by rw [trace_append_cons, ht, List.append_assoc])
        fun y hy => hstay y (by rw [ht]; simp [hy])
    rw [trace_append_cons, List.mem_append] at hpass
    refine ⟨es₁, p, e, es₂, x, hx, s, h₁, hout, he, h₂, hstay, hs, hpass.resolve_right hlast, hlast,
      ?_⟩
    rw [← conditionOn_return wf h₁ hout, hvalid]

theorem takes_of_mem (hp : f.Planned m settings plan) {moved : List Site}
    (hmoved : (sortInts plan.moves).mapM f.getSite = .ok moved) (hb : f.binding? place.binding = some b)
    {s : Site} (hs : s ∈ (moved.filter (·.binding = some place.binding)).filter (·.reaches place)) :
    s ∈ f.allSites ∧ Takes plan.moves place s := by
  rw [List.mem_filter, List.mem_filter] at hs
  obtain ⟨⟨hmem, hn⟩, hreach⟩ := hs
  rw [decide_eq_true_eq] at hn
  obtain ⟨id, hid, hget⟩ := mem_of_mapM hmoved hmem
  rw [getSite, optionOr_eq_ok] at hget
  have hall : s ∈ f.allSites := List.mem_of_find?_eq_some hget
  have hsid : s.id = id := by simpa using List.find?_some hget
  have hmoves : s.id ∈ plan.moves := by
    rw [hsid]
    exact (mem_sortBy _ _ _).1 hid
  rw [Site.reaches, Bool.and_eq_true] at hreach
  exact ⟨hall, hmoves, (hp.of_mem_moves hall hn hb hmoves).1, hn, hreach.2⟩

theorem exits_of_never {moveSites : List Site} {r : PlaceStates}
    (h : (f.disposalFromStates b moveSites r).1 = .never) :
    (¬ ∃ e ∈ r.exitStates, e.2 = .valid ∨ e.2 = .maybe) ∧
      (f.disposalFromStates b moveSites r).2 ≠ .dominatingMove := by
  simp only [disposalFromStates] at h ⊢
  split
  next howed =>
    refine ⟨?_, by split <;> simp⟩
    rintro ⟨e, he, hv⟩
    rw [List.isEmpty_iff, List.filter_eq_nil_iff] at howed
    refine howed e.2 (List.mem_map_of_mem he) ?_
    rwa [Bool.or_eq_true, decide_eq_true_eq, decide_eq_true_eq]
  next howed =>
    rw [if_neg howed] at h
    split at h <;> cases h

/-- A place of an owned binding that owes destruction and is never destroyed is alive at an end of its
lifetime just if a dominating move was the reason and some run comes back to the region after it. The
states of the analysis show it. The binding is kept under its own name, as in all that is built or read. -/
theorem neverDestroyed_alive_iff (hplan : planFunction m settings f = .ok plan)
    (hx : plan.excluded = false) {d : DestructionPlan} (hd : plan.destruction.get? place = some d)
    (hb : f.binding? place.binding = some b) (hname : b.name = place.binding)
    (howned : f.ownership b = .owned)
    (hneeds : m.needsDestroy d.type = .ok true) (hnever : d.disposal = .never) :
    ∃ r, f.placeStates plan.moves place = .ok r ∧
      ((∃ x ∈ f.scopeExits f.graph b, f.Leaves plan.moves place b x.block .valid) ↔
        ∃ e ∈ r.exitStates, e.2 = .valid ∨ e.2 = .maybe) ∧
      ((∃ e ∈ r.exitStates, e.2 = .valid ∨ e.2 = .maybe) ↔
        d.reason = .dominatingMove ∧ f.AliveOnReturn plan.moves place b) := by
  have hp := planned_of_planFunction hplan hx
  obtain ⟨moved, x, hmoved, hplace, hdisposal, hreason⟩ := hp.placePlan hd hb howned hneeds
  obtain ⟨r, hr, hcase⟩ := of_placePlan hplace
  have halive := alive_exitStates hp.wf hb hr
  refine ⟨r, hr, halive.symm, ?_⟩
  rw [hdisposal] at hnever
  rw [hreason, halive]
  rcases hcase with ⟨hshort, rfl⟩ | ⟨_, rfl⟩
  · -- a move dominates the ends of the lifetime
    rw [shortcut] at hshort
    split at hshort
    next => cases hshort
    next hskip =>
    rw [Bool.or_eq_true, Bool.or_eq_true, not_or, not_or, Bool.not_eq_true', Bool.not_eq_false,
      List.isEmpty_iff] at hskip
    obtain ⟨s, hs, hdom⟩ := of_anyDominates hshort
    obtain ⟨hall, htakes⟩ := takes_of_mem hp hmoved hb hs
    constructor
    · rintro ⟨x, hx, hleaves⟩
      exact ⟨rfl, aliveOnReturn_of_leaves hp.wf hb hname hr
        (List.isEmpty_iff.1 hskip.1.2) hdom htakes hall hx hleaves⟩
    · rintro ⟨_, hreturn⟩
      exact leaves_of_aliveOnReturn hp.wf hreturn
  · -- the states decide
    obtain ⟨hnone, hother⟩ := exits_of_never hnever
    rw [halive] at hnone
    exact iff_of_false hnone fun h => hother h.1

def comesBack : Function :=
  (Script.run .standard "f" .empty [
    .scope [
      .moveOut (.place "t") (some (.argument "g" 0 .value false false)) false false,
      .jump "out",
      .label "back",
      .declare "t" (.named "Str"),
      .ret .value []],
    .label "out",
    .jump "back"]).function

def comesBackPlan : FunctionPlan :=
  (planFunction (TypeModel.build .standard) {} comesBack).toOption.getD default

theorem planFunction_comesBack :
    planFunction (TypeModel.build .standard) {} comesBack = .ok comesBackPlan :=
  eq_ok_of_isOk (by decide +kernel)

def comesBackLocal : Binding := { name := "t", type := 2, region := some [1, 2] }

theorem neverDestroyed_comesBack :
    ∃ r, comesBack.placeStates comesBackPlan.moves { binding := "t" } = .ok r ∧
      ((∃ x ∈ comesBack.scopeExits comesBack.graph comesBackLocal,
          comesBack.Leaves comesBackPlan.moves { binding := "t" } comesBackLocal x.block .valid) ↔
        ∃ e ∈ r.exitStates, e.2 = .valid ∨ e.2 = .maybe) ∧
      ((∃ e ∈ r.exitStates, e.2 = .valid ∨ e.2 = .maybe) ↔
        DestroyReason.dominatingMove = .dominatingMove ∧
          comesBack.AliveOnReturn comesBackPlan.moves { binding := "t" } comesBackLocal) := by
  have hd : comesBackPlan.destruction.get? { binding := "t" } =
      some { type := 2, disposal := .never, reason := .dominatingMove } := by decide +kernel
  have hb : comesBack.binding? "t" = some comesBackLocal := by decide +kernel
  have howned : comesBack.ownership comesBackLocal = .owned := by decide +kernel
  have hneeds : (TypeModel.build .standard).needsDestroy 2 = .ok true := by decide +kernel
  exact neverDestroyed_alive_iff planFunction_comesBack (by decide +kernel) hd hb rfl howned hneeds rfl

/-- Every run of this function returns with the local alive, and the local is never destroyed. -/
theorem neverDestroyed_leaks :
    Produced comesBack ∧ comesBack.validate (some (TypeModel.build .standard)) = .ok [] ∧
      planFunction (TypeModel.build .standard) {} comesBack = .ok comesBackPlan ∧
      comesBackPlan.excluded = false ∧ comesBack.binding? "t" = some comesBackLocal ∧
      comesBack.ownership comesBackLocal = .owned ∧
      (TypeModel.build .standard).needsDestroy comesBackLocal.type = .ok true ∧
      comesBackPlan.destruction.get? { binding := "t" } =
        some { type := 2, disposal := .never, reason := .dominatingMove } ∧
      (comesBack.placeStates comesBackPlan.moves { binding := "t" }).toOption.map PlaceStates.exitStates =
        some [({ block := 1, next := some 4 }, .moved), ({ block := 2, next := none }, .valid)] := by
  refine ⟨.script .., ?_, planFunction_comesBack, ?_, ?_, ?_, ?_, ?_, ?_⟩
  all_goals decide +kernel

end Function
end MovePlan
