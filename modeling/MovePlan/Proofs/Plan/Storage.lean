import MovePlan.Proofs.Plan.Disposal

set_option autoImplicit false

namespace MovePlan
open TraceEvent (At)
namespace Function
variable {f : Function} {m : TypeModel} {settings : Settings} {plan : FunctionPlan}
  {moves : List SiteId} {place : Place} {b : Binding}

theorem root_of_bindingPlans {states : StatesOf} {d : Dominators} {name : String} {moved : List Site}
    {plans : List (Place × DestructionPlan)}
    (h : f.bindingPlans m states moved d name b = .ok plans) :
    ∃ root, ({ binding := name }, root) ∈ plans := by
  rcases bindingPlans_cases h with ⟨reason, rfl, _⟩ | ⟨_, _, root, paths, fields, _, _, _, rfl⟩
  · exact ⟨_, List.mem_singleton_self _⟩
  · exact ⟨_, List.mem_cons_self⟩

theorem root_type_of_bindingPlans {states : StatesOf} {d : Dominators} {name : String}
    {moved : List Site} {plans : List (Place × DestructionPlan)}
    (h : f.bindingPlans m states moved d name b = .ok plans) {root : DestructionPlan}
    (hmem : ({ binding := name }, root) ∈ plans) : root.type = b.type := by
  rcases bindingPlans_cases h with ⟨reason, rfl, _⟩ | ⟨_, _, x, paths, fields, hpaths, hx, hfields, rfl⟩
  · rw [List.mem_singleton, Prod.mk.injEq] at hmem
    rw [hmem.2]
  rcases List.mem_cons.1 hmem with heq | hmem
  · rw [Prod.mk.injEq] at heq
    rw [heq.2]
    have htype : x.type = b.type := type_of_placePlan hx
    exact htype
  · -- the plans of the fields belong to paths that are not empty
    obtain ⟨path, hpath, hfield⟩ := mem_of_mapM hfields hmem
    have hplace := (fieldPlan_cases hfield).1
    rw [Place.mk.injEq] at hplace
    exact absurd (hplace.2 ▸ hpath) hpaths

theorem Planned.exists_plan (hp : f.Planned m settings plan) {name : String}
    (hb : f.binding? name = some b) : ∃ d, plan.destruction.get? { binding := name } = some d := by
  obtain ⟨moved, _, h⟩ := bind_eq_ok.1 hp.destruction
  obtain ⟨plans, hplans, h⟩ := bind_eq_ok.1 h
  rw [pure_eq_ok] at h
  have hname : name ∈ sortNames f.bindings.keys := by
    rw [sortNames, mem_sortBy, ← OrderedMap.contains_iff, OrderedMap.contains, ← binding?, hb]
    rfl
  obtain ⟨part, hpart, hbinding⟩ := exists_mem_of_mapM hplans hname
  obtain ⟨_, _, hbinding⟩ := bind_eq_ok.1 hbinding
  obtain ⟨root, hroot⟩ := root_of_bindingPlans hbinding
  rw [← h, OrderedMap.get?_ofList]
  exact exists_lastWrite (List.mem_flatten.2 ⟨part, hpart, hroot⟩)

theorem of_count_lt {a : BlockId} {es : List Edge} {r r' : Run}
    (hb : f.binding? place.binding = some b)
    (h : f.runAlong plan f.lifetimeOrder a es r = .ok r')
    (hlt : r.destroyed.toList.count place < r'.destroyed.toList.count place) :
    (∃ d, plan.destruction.get? place = some d ∧ d.disposal ≠ .never) ∧
      ∃ e ∈ es, b.inRegion e.dst = false := by
  induction es generalizing a r with
  | nil =>
    rw [runAlong, Except.ok.injEq] at h
    rw [← h, destroyed_passBlock] at hlt
    omega
  | cons e es ih =>
    obtain ⟨names, hnames, h⟩ := bind_eq_ok.1 h
    -- either this edge destroys the place, or the count is the same behind it
    by_cases howed : place ∈ (f.passBlock plan a r).owedPlaces plan names
    · obtain ⟨hname, d, hd, howes⟩ := Run.mem_owedPlaces.1 howed
      refine ⟨⟨d, hd, fun hnever => ?_⟩, e, List.mem_cons_self, ?_⟩
      · rw [Run.owes, hnever] at howes
        cases howes
      · exact ((mem_endingOnEdge hnames hb).1 hname).2.2
    · have hcount : ((f.passBlock plan a r).endScope plan names).destroyed.toList.count place =
          r.destroyed.toList.count place := by
        rw [Run.destroyed_endScope, destroyed_passBlock, List.count_append,
          List.count_eq_zero_of_not_mem howed, Nat.add_zero]
      obtain ⟨hd, e', he', hout⟩ := ih h (by rw [hcount]; exact hlt)
      exact ⟨hd, e', List.mem_cons_of_mem _ he', hout⟩

theorem of_count_lt_append {a q : BlockId} {es es' : List Edge} {r r₁ r₂ : Run}
    (hb : f.binding? place.binding = some b) (hw : f.Walk a es q)
    (h₁ : f.runAlong plan f.lifetimeOrder a es r = .ok r₁)
    (h₂ : f.runAlong plan f.lifetimeOrder a (es ++ es') r = .ok r₂)
    (hlt : r₁.destroyed.toList.count place < r₂.destroyed.toList.count place) :
    (∃ d, plan.destruction.get? place = some d ∧ d.disposal ≠ .never) ∧
      ∃ e ∈ es', b.inRegion e.dst = false := by
  induction es generalizing a r with
  | nil =>
    rw [runAlong, Except.ok.injEq] at h₁
    rw [← h₁, destroyed_passBlock] at hlt
    exact of_count_lt hb h₂ hlt
  | cons e es ih =>
    obtain ⟨names, hnames, h₁⟩ := bind_eq_ok.1 h₁
    obtain ⟨names', hnames', h₂⟩ := bind_eq_ok.1 h₂
    rw [hnames, Except.ok.injEq] at hnames'
    subst hnames'
    exact ih hw.2 h₁ h₂

theorem count_lt_of_owes {a q : BlockId} {es es' : List Edge} {e : Edge} {r r₁ r₂ : Run}
    {d : DestructionPlan} (hb : f.binding? place.binding = some b)
    (horder : place.binding ∈ f.lifetimeOrder) (hw : f.Walk a es q)
    (h₁ : f.runAlong plan f.lifetimeOrder a es r = .ok r₁)
    (h₂ : f.runAlong plan f.lifetimeOrder a (es ++ e :: es') r = .ok r₂)
    (hin : b.inRegion q = true) (hout : b.inRegion e.dst = false)
    (hd : plan.destruction.get? place = some d) (howes : r₁.owes d = true) :
    r₁.destroyed.toList.count place < r₂.destroyed.toList.count place := by
  rw [runAlong_append_cons hw h₁] at h₂
  obtain ⟨names, hnames, h₂⟩ := bind_eq_ok.1 h₂
  have hname : place.binding ∈ names := (mem_endingOnEdge hnames hb).2 ⟨horder, hin, hout⟩
  have howed : 0 < (r₁.owedPlaces plan names).count place :=
    List.count_pos_iff.2 (Run.mem_owedPlaces.2 ⟨hname, d, hd, howes⟩)
  have hgrown := (destroyed_grows h₂).sublist.count_le place
  rw [Run.destroyed_endScope, List.count_append] at hgrown
  omega

/-- A walk passes a site that takes the value of the place. On a lap from a declaration back to it, every
other site is passed between the two. -/
def TakenOn (f : Function) (moves : List SiteId) (place : Place) (a : BlockId) (es : List Edge) : Prop :=
  ∃ u, Takes moves place u ∧ .pass u ∈ f.trace a es

/-- After its declaration a local is declared and holds a value, as long as the run stays in the region
and no site takes the value. -/
theorem declared_of_stay (wf : f.WellFormed) {s : Site} (hs : s ∈ f.allSites)
    (hdecl : declares place.binding s = true) (hin : b.inRegion s.block = true) {es₁ es₂ : List Edge}
    (hw : f.Walk f.entry es₁ s.block) (hstay : ∀ e ∈ es₂, b.inRegion e.dst = true)
    (htaken : ¬ f.TakenOn moves place s.block es₂) :
    Declared place b (f.trace f.entry (es₁ ++ es₂)) ∧ f.Holds moves place b (f.trace f.entry (es₁ ++ es₂)) := by
  obtain ⟨pre, post, hsites⟩ := List.append_of_mem (wf.mem_sitesAt hs)
  have hrenews : Renews place s := ⟨(declares_iff.1 hdecl).1, .inl (declares_iff.1 hdecl).2⟩
  have ht := trace_of_site es₂ hw hsites
  -- nothing after the declaration leaves the region or takes the value
  have hafter : ∀ y ∈ post.map .pass ++ es₂.flatMap fun e => f.eventsAt e.dst,
      ¬ Outside b y ∧ ¬ At (Takes moves place) y := by
    intro y hy
    have hmem : y ∈ f.trace s.block es₂ := by
      rw [trace, eventsAt, hsites]
      rcases List.mem_append.1 hy with hy | hy
      · simp [hy]
      · exact List.mem_append_right _ hy
    cases y with
    | enter id =>
      rw [List.mem_append, List.mem_flatMap] at hy
      obtain ⟨e, he, hid⟩ := hy.resolve_left (by simp)
      obtain rfl := mem_eventsAt_enter.1 hid
      exact ⟨by simp [Outside, hstay e he], id⟩
    | pass u => exact ⟨id, fun hu => htaken ⟨u, hu, hmem⟩⟩
  rw [ht]
  refine ⟨.inr ⟨_, _, _, rfl, hdecl, fun y hy => (hafter y hy).1⟩,
    .inr ⟨_, _, _, rfl, ⟨hrenews, hin⟩, fun y hy => (hafter y hy).1⟩, ?_⟩
  exact not_since_of_after (fun htakes => not_renews_of_takes htakes hrenews) hrenews
    fun y hy => (hafter y hy).2

theorem Planned.owes_of_holds (hp : f.Planned m settings plan) (hone : f.DeclaredOnce)
    (hinside : f.DeclaredInside) {d : DestructionPlan} (hd : plan.destruction.get? place = some d)
    (hne : d.disposal ≠ .never) (hb : f.binding? place.binding = some b)
    (hname : ∀ flag, d.disposal = .guarded flag → ∀ g ∈ plan.flags, g.name = flag.name → g = flag)
    {es : List Edge} {c : BlockId} (hw : f.Walk f.entry es c) {r : Run}
    (h : f.runAlong plan f.lifetimeOrder f.entry es { flags := plan.initialFlags } = .ok r)
    (hdeclared : Declared place b (f.trace f.entry es))
    (hholds : f.Holds plan.moves place b (f.trace f.entry es)) : r.owes d = true := by
  rw [Run.owes]
  cases hdisposal : d.disposal with
  | always => rfl
  | never => exact absurd hdisposal hne
  | guarded flag =>
    obtain ⟨b', hg⟩ := hp.guards hd hdisposal
    have hb' := hg.binding
    rw [hb, Option.some.injEq] at hb'
    subst hb'
    have ht : f.trace f.entry es = f.trace f.entry es ++ [] := by simp
    have hon : flag.On (f.trace f.entry es) := by
      rcases hg.agree_of_declared hp.wf hone hinside hw ht hdeclared with ⟨_, _, hon⟩ | ⟨_, htaken, _⟩
      · exact hon
      · exact absurd htaken hholds.2
    have hflag : r.flags.get? flag.name = some true := by
      rw [flags_runAlong h]
      exact (FunctionPlan.get?_flags_iff (FunctionPlan.mem_flags hd hdisposal) (hname flag hdisposal) _).2 hon
    simp only [hflag, Option.getD_some]

theorem Planned.dominated_of_holds (hp : f.Planned m settings plan) {d : DestructionPlan}
    (hd : plan.destruction.get? place = some d) (hb : f.binding? place.binding = some b)
    (howned : f.ownership b = .owned) (hneeds : m.needsDestroy d.type = .ok true)
    (hnever : d.disposal = .never) {es : List Edge} {c : BlockId} {e : Edge}
    (hw : f.Walk f.entry es c) (hin : b.inRegion c = true) (he : e ∈ f.edgesAt c)
    (hout : b.inRegion e.dst = false) (hholds : f.Holds plan.moves place b (f.trace f.entry es)) :
    d.reason = .dominatingMove := by
  obtain ⟨moved, x, _, hplace, hdisposal, hreason⟩ := hp.placePlan hd hb howned hneeds
  obtain ⟨r, hr, ⟨_, rfl⟩ | ⟨_, rfl⟩⟩ := of_placePlan hplace
  · exact hreason
  rw [hdisposal] at hnever
  have hexit : ({ block := c, next := some e.dst } : ScopeExit) ∈ f.scopeExits f.graph b :=
    mem_scopeExits.2 ⟨⟨hp.wf.reached ⟨es, hw⟩, hin⟩, .inr ⟨e, he, hout, rfl⟩⟩
  have hvalid := (tracks_trace hp.wf hw).valid_iff.2 hholds
  exact absurd ((alive_exitStates hp.wf hb hr).2 ⟨_, hexit, es, hw, hvalid⟩) (exits_of_never hnever).1

/-- A run that leaves the region while the local holds its value destroys it, or a dominating move has the
local never destroyed. -/
theorem Planned.destroyed_of_leaves (hp : f.Planned m settings plan) (hone : f.DeclaredOnce)
    (hinside : f.DeclaredInside) {s : Site} {name : String} (hs : s ∈ f.allSites) (hn : s.binding = some name)
    (hk : s.kind = .decl) (hb : f.binding? name = some b) (howned : f.ownership b = .owned)
    (hneeds : m.needsDestroy b.type = .ok true) {d : DestructionPlan}
    (hd : plan.destruction.get? { binding := name } = some d)
    (hname : ∀ flag, d.disposal = .guarded flag → ∀ g ∈ plan.flags, g.name = flag.name → g = flag)
    {es lap : List Edge} {c : BlockId} (hw : f.Walk f.entry es s.block) (hlap : f.Walk s.block lap c)
    {r₁ r₂ : Run}
    (h₁ : f.runAlong plan f.lifetimeOrder f.entry es { flags := plan.initialFlags } = .ok r₁)
    (h₂ : f.runAlong plan f.lifetimeOrder f.entry (es ++ lap) { flags := plan.initialFlags } = .ok r₂)
    (htaken : ¬ f.TakenOn plan.moves { binding := name } s.block lap)
    (hleave : ¬ ∀ e ∈ lap, b.inRegion e.dst = true) :
    r₁.destroyed.toList.count { binding := name } < r₂.destroyed.toList.count { binding := name } ∨
      (d.disposal = .never ∧ d.reason = .dominatingMove) := by
  have hin : b.inRegion s.block = true := hinside hs hn hk hb
  have hdecl : declares name s = true := declares_iff.2 ⟨hn, hk⟩
  -- up to the first edge out of the region the value is still there, so this edge owes it
  obtain ⟨lap₁, e, lap₂, q, rfl, hlap₁, hqin, he, hout, hstay⟩ := walk_firstLeave b.inRegion hlap hin hleave
  have hq : f.Walk f.entry (es ++ lap₁) q := walk_append.2 ⟨_, hw, hlap₁⟩
  have htaken₁ : ¬ f.TakenOn plan.moves { binding := name } s.block lap₁ := by
    rintro ⟨u, hu, hmem⟩
    exact htaken ⟨u, hu, by rw [trace_append]; exact List.mem_append_left _ hmem⟩
  obtain ⟨hdeclared, hholds⟩ := declared_of_stay hp.wf hs hdecl hin hw
    hstay htaken₁
  by_cases hnever : d.disposal = .never
  · obtain ⟨_, _, plans, _, hb', hplans, hmem⟩ := hp.bindingPlans hd
    rw [hb, Option.some.injEq] at hb'
    subst hb'
    have htype : d.type = b.type := root_type_of_bindingPlans hplans hmem
    rw [← htype] at hneeds
    exact .inr ⟨hnever, hp.dominated_of_holds hd hb howned hneeds hnever hq hqin he hout hholds⟩
  · left
    obtain ⟨r, hr⟩ := exists_runAlong (p := plan) hp.wf f.entry (es ++ lap₁) { flags := plan.initialFlags }
    have howes := hp.owes_of_holds hone hinside hd hnever hb hname hq hr hdeclared hholds
    have horder : name ∈ f.lifetimeOrder :=
      List.mem_append_right _ (List.mem_filterMap.2 ⟨s, List.mem_filter.2 ⟨hs, by simpa using hk⟩, hn⟩)
    rw [← List.append_assoc] at h₂
    have hlt := count_lt_of_owes hb horder hq hr h₂ hqin hout hd howes
    have hle := (destroyed_grows_append hw h₁ hr).sublist.count_le { binding := name }
    omega

/-- A local that this function owns is declared again, on a lap that leads from its declaration back to
it. The value of the earlier declaration is neither moved out on the lap nor destroyed on it just if no
site takes it and the run stays in the region, or if a dominating move has the place never destroyed. -/
theorem redeclared_undisposed_iff (hf : Produced f ∨ Construction.Makes f)
    (hplan : planFunction m settings f = .ok plan) (hx : plan.excluded = false)
    {s : Site} {name : String} (hs : s ∈ f.allSites)
    (hn : s.binding = some name) (hk : s.kind = .decl) (hb : f.binding? name = some b)
    (howned : f.ownership b = .owned) (hneeds : m.needsDestroy b.type = .ok true)
    {es lap : List Edge} (hw : f.Walk f.entry es s.block) (hlap : f.Walk s.block lap s.block) :
    ∃ d r₁ r₂, plan.destruction.get? { binding := name } = some d ∧
      f.runAlong plan f.lifetimeOrder f.entry es { flags := plan.initialFlags } = .ok r₁ ∧
      f.runAlong plan f.lifetimeOrder f.entry (es ++ lap) { flags := plan.initialFlags } = .ok r₂ ∧
      ((∀ flag, d.disposal = .guarded flag → ∀ g ∈ plan.flags, g.name = flag.name → g = flag) →
        (¬ (f.TakenOn plan.moves { binding := name } s.block lap ∨
            r₁.destroyed.toList.count { binding := name } <
              r₂.destroyed.toList.count { binding := name }) ↔
          ¬ f.TakenOn plan.moves { binding := name } s.block lap ∧
            ((∀ e ∈ lap, b.inRegion e.dst = true) ∨
              (d.disposal = .never ∧ d.reason = .dominatingMove)))) := by
  have hone : f.DeclaredOnce := hf.elim Produced.declaredOnce Construction.Makes.declaredOnce
  have hp := planned_of_planFunction hplan hx
  have hinside : f.DeclaredInside := declaredInside_of_planFunction hone.keyed hplan hx
  obtain ⟨d, hd⟩ := hp.exists_plan hb
  obtain ⟨r₁, h₁⟩ := exists_runAlong (p := plan) hp.wf f.entry es { flags := plan.initialFlags }
  obtain ⟨r₂, h₂⟩ := exists_runAlong (p := plan) hp.wf f.entry (es ++ lap) { flags := plan.initialFlags }
  refine ⟨d, r₁, r₂, hd, h₁, h₂, fun hname => ?_⟩
  rw [not_or]
  refine and_congr_right fun htaken => ⟨fun hcount => ?_, ?_⟩
  · by_cases hstay : ∀ e ∈ lap, b.inRegion e.dst = true
    · exact .inl hstay
    · exact .inr ((hp.destroyed_of_leaves hone hinside hs hn hk hb howned hneeds hd hname hw hlap h₁ h₂
        htaken hstay).resolve_left hcount)
  · intro hcase hcount
    obtain ⟨⟨d', hd', hne⟩, e, he, hout⟩ := of_count_lt_append hb hw h₁ h₂ hcount
    rcases hcase with hstay | ⟨hnever, _⟩
    · rw [hstay e he] at hout
      cases hout
    · rw [hd, Option.some.injEq] at hd'
      exact hne (hd' ▸ hnever)

/-- A label before a declaration, and a jump back to it. -/
def declaredAgain : Function :=
  (Script.run .standard "f" .empty [
    .label "again",
    .declare "t" (.named "Str"),
    .jumpIf "again"]).function

def declaredAgainPlan : FunctionPlan :=
  (planFunction (TypeModel.build .standard) {} declaredAgain).toOption.getD default

theorem planFunction_declaredAgain :
    planFunction (TypeModel.build .standard) {} declaredAgain = .ok declaredAgainPlan :=
  eq_ok_of_isOk (by decide +kernel)

def toLabel : List Edge := [{ src := 0, dst := 1 }]

def backToLabel : List Edge := [{ src := 1, dst := 1, kind := .jump, label := some "again" }]

theorem redeclared_declaredAgain :
    ∃ d r₁ r₂, declaredAgainPlan.destruction.get? { binding := "t" } = some d ∧
      declaredAgain.runAlong declaredAgainPlan declaredAgain.lifetimeOrder declaredAgain.entry toLabel
        { flags := declaredAgainPlan.initialFlags } = .ok r₁ ∧
      declaredAgain.runAlong declaredAgainPlan declaredAgain.lifetimeOrder declaredAgain.entry
        (toLabel ++ backToLabel) { flags := declaredAgainPlan.initialFlags } = .ok r₂ ∧
      ((∀ flag, d.disposal = .guarded flag →
          ∀ g ∈ declaredAgainPlan.flags, g.name = flag.name → g = flag) →
        (¬ (declaredAgain.TakenOn declaredAgainPlan.moves { binding := "t" } 1 backToLabel ∨
            r₁.destroyed.toList.count { binding := "t" } <
              r₂.destroyed.toList.count { binding := "t" }) ↔
          ¬ declaredAgain.TakenOn declaredAgainPlan.moves { binding := "t" } 1 backToLabel ∧
            ((∀ e ∈ backToLabel, ({ name := "t", type := 2 } : Binding).inRegion e.dst = true) ∨
              (d.disposal = .never ∧ d.reason = .dominatingMove)))) := by
  have hx : declaredAgainPlan.excluded = false := by decide +kernel
  have hs : ∃ s ∈ declaredAgain.allSites, s.block = 1 ∧ s.binding = some "t" ∧ s.kind = .decl := by
    decide +kernel
  obtain ⟨s, hs, hblock, hn, hk⟩ := hs
  have hb : declaredAgain.binding? "t" = some { name := "t", type := 2 } := by decide +kernel
  have howned : declaredAgain.ownership { name := "t", type := 2 } = .owned := by decide +kernel
  have hneeds : (TypeModel.build .standard).needsDestroy 2 = .ok true := by decide +kernel
  have hw : declaredAgain.Walk declaredAgain.entry toLabel s.block := by rw [hblock]; decide +kernel
  have hlap : declaredAgain.Walk s.block backToLabel s.block := by rw [hblock]; decide +kernel
  rw [← hblock]
  exact redeclared_undisposed_iff (.inl (.script ..)) planFunction_declaredAgain hx hs hn hk hb howned hneeds
    hw hlap

/-- The local is declared twice, moved by nothing, and destroyed once. -/
theorem declaredAgain_leaks :
    Produced declaredAgain ∧ declaredAgain.validate (some (TypeModel.build .standard)) = .ok [] ∧
      planFunction (TypeModel.build .standard) {} declaredAgain = .ok declaredAgainPlan ∧
      declaredAgainPlan.excluded = false ∧ declaredAgain.binding? "t" = some { name := "t", type := 2 } ∧
      declaredAgain.ownership { name := "t", type := 2 } = .owned ∧
      (TypeModel.build .standard).needsDestroy 2 = .ok true ∧
      (∃ s ∈ declaredAgain.sitesAt 1, s.binding = some "t" ∧ s.kind = .decl) ∧
      declaredAgainPlan.moves = [] ∧
      ((declaredAgain.run declaredAgainPlan (.ofList [(1, .visits [1, 0])]) 200).toOption.map fun r =>
        (r.blocks, r.destroyed)) = some (#[0, 1, 1, 2], #[{ binding := "t" }]) := by
  refine ⟨.script .., ?_, planFunction_declaredAgain, ?_, ?_, ?_, ?_, ?_, ?_, ?_⟩
  all_goals decide +kernel

end Function
end MovePlan
