import MovePlan.Plan.Fallback
import MovePlan.Proofs.Types.Registered

set_option autoImplicit false

namespace MovePlan

theorem TypeModel.contains_of_leafType? {t : TypeTable} (ht : t.FieldsRegistered) {b : Binding}
    {path : Path} {leaf : TypeId} (h : (build t).leafType? b path = some leaf) :
    t.contains leaf = true := by
  rw [leafType?] at h
  split at h
  · cases h
  next hroot =>
    have hroot : t.contains b.type = true := by simpa [build] using hroot
    split at h
    next p hp =>
      rw [Option.some.injEq] at h
      rw [← h]
      exact contains_of_resolvePath ht hroot hp p.leaf p.leaf_mem_chain
    next => cases h

theorem TypeModel.exists_assignRelevant {t : TypeTable} {id : TypeId} (h : t.contains id = true) :
    ∃ x, (build t).assignRelevant id = .ok x := by
  refine exists_bind (exists_liftType (exists_isMoveCapable h)) fun capable _ => ?_
  cases capable with
  | true => exact exists_pure
  | false => exact exists_liftType (exists_needsDestroy h)

namespace Function
variable {f : Function} {m : TypeModel} {settings : Settings} {plan : FunctionPlan} {s : Site}

/-- The site stands first, or a site stands before the position that it claims. -/
def SourceFound (f : Function) (s : Site) : Prop :=
  s.index = 0 ∨ ∃ blk, f.block? s.block = some blk ∧ (entryAt? blk.sites (s.index - 1)).isSome = true

def PlansWrite (f : Function) (m : TypeModel) (s : Site) : Prop :=
  s.kind = .write ∧ ∃ name b leaf, s.binding = some name ∧ f.binding? name = some b ∧
    m.leafType? b s.path = some leaf ∧ m.assignRelevant leaf = .ok true

theorem exists_assignSource_iff : (∃ x, f.assignSource s = .ok x) ↔ f.SourceFound s := by
  rw [assignSource, SourceFound]
  by_cases hfirst : s.index = 0
  · rw [if_pos hfirst]
    exact iff_of_true ⟨none, rfl⟩ (.inl hfirst)
  rw [if_neg hfirst, or_iff_right hfirst]
  constructor
  · rintro ⟨x, h⟩
    obtain ⟨blk, hb, h⟩ := bind_eq_ok.1 h
    obtain ⟨prev, hprev, _⟩ := bind_eq_ok.1 h
    rw [getBlock, optionOr_eq_ok] at hb
    rw [optionOr_eq_ok] at hprev
    exact ⟨blk, hb, by rw [hprev]; rfl⟩
  · rintro ⟨blk, hb, hprev⟩
    obtain ⟨prev, hprev⟩ := Option.isSome_iff_exists.1 hprev
    refine exists_bind ⟨blk, optionOr_eq_ok.2 hb⟩ fun blk' hblk => ?_
    rw [getBlock, optionOr_eq_ok, hb, Option.some.injEq] at hblk
    subst hblk
    refine exists_bind ⟨prev, optionOr_eq_ok.2 hprev⟩ fun prev _ => ?_
    cases prev.target with
    | none => exact exists_pure
    | some t => dsimp only; split <;> exact exists_pure

theorem exists_fallbackAssign?_iff {t : TypeTable} (ht : t.FieldsRegistered) (hk : s.kind = .write) :
    (∃ x, f.fallbackAssign? (TypeModel.build t) settings s = .ok x) ↔
      (f.PlansWrite (TypeModel.build t) s → f.SourceFound s) := by
  constructor
  · rintro ⟨x, h⟩ ⟨_, name, b, leaf, hn, hb, hleaf, hrelevant⟩
    rw [fallbackAssign?] at h
    simp only [hn, hb, Option.bind_some, Option.map_some, hleaf] at h
    obtain ⟨relevant, hr, h⟩ := bind_eq_ok.1 h
    rw [hrelevant, Except.ok.injEq] at hr
    subst hr
    obtain ⟨owed, _, h⟩ := bind_eq_ok.1 h
    obtain ⟨source, hsource, _⟩ := bind_eq_ok.1 h
    exact exists_assignSource_iff.1 ⟨source, hsource⟩
  · intro hfound
    rw [fallbackAssign?]
    cases hn : s.binding with
    | none => exact exists_pure
    | some name =>
      cases hb : f.binding? name with
      | none =>
        simp only [Option.bind_some, hb, Option.map_none]
        exact exists_pure
      | some b =>
        simp only [Option.bind_some, hb, Option.map_some]
        cases hleaf : (TypeModel.build t).leafType? b s.path with
        | none => exact exists_pure
        | some leaf =>
          have hc := TypeModel.contains_of_leafType? ht hleaf
          refine exists_bind (TypeModel.exists_assignRelevant hc) fun relevant hrelevant => ?_
          cases relevant with
          | false => exact exists_pure
          | true =>
            have hsource := hfound ⟨hk, name, b, leaf, hn, hb, hleaf, hrelevant⟩
            refine exists_bind (exists_liftType (TypeModel.exists_needsDestroy hc)) fun _ _ => ?_
            exact exists_bind (exists_assignSource_iff.2 hsource) fun _ _ => exists_pure

/-- What the fallback plans for one binding, as a whole. -/
def copyPlan? (f : Function) (m : TypeModel) (e : String × Binding) :
    Except Fault (Option (Place × DestructionPlan)) :=
  if !m.table.contains e.2.type then .ok none
  else (if f.ownership e.2 = .owned then liftType (m.needsDestroy e.2.type) else .ok false).map
    fun owed => some ({ binding := e.1 },
      { type := e.2.type, disposal := if owed then .always else .never, reason := .fallback })

theorem fallbackDestruction_eq (f : Function) (m : TypeModel) : f.fallbackDestruction m =
    (((sortNames f.bindings.keys).filterMap fun name => (f.binding? name).map fun b => (name, b)).mapM
      (f.copyPlan? m)).map fun plans => .ofList (plans.filterMap id) := by
  rw [fallbackDestruction, @mapM_congr _ _ _ _ (f.copyPlan? m)]
  · cases List.mapM (f.copyPlan? m) _ <;> rfl
  · rintro ⟨name, b⟩ -
    dsimp only [copyPlan?]
    split
    · rfl
    · split
      · cases liftType (m.needsDestroy b.type) <;> rfl
      · rfl

theorem exists_fallbackDestruction (t : TypeTable) :
    ∃ plans, f.fallbackDestruction (TypeModel.build t) = .ok plans := by
  have hplan : ∀ e : String × Binding, ∃ x, f.copyPlan? (TypeModel.build t) e = .ok x := by
    intro e
    rw [copyPlan?]
    split
    · exact ⟨_, rfl⟩
    next hc =>
    have hc : t.contains e.2.type = true := by simpa [TypeModel.build] using hc
    obtain ⟨owed, howed⟩ : ∃ owed, (if f.ownership e.2 = .owned then
        liftType ((TypeModel.build t).needsDestroy e.2.type) else .ok false) = .ok owed := by
      split
      · exact exists_liftType (TypeModel.exists_needsDestroy hc)
      · exact ⟨false, rfl⟩
    exact ⟨_, map_eq_ok.2 ⟨owed, howed, rfl⟩⟩
  obtain ⟨plans, hplans⟩ := exists_mapM fun e _ => hplan e
  exact ⟨_, (fallbackDestruction_eq f _).trans (map_eq_ok.2 ⟨plans, hplans, rfl⟩)⟩

theorem of_copyPlan? {e : String × Binding} {x : Place × DestructionPlan}
    (h : f.copyPlan? m e = .ok (some x)) : x.1 = { binding := e.1 } ∧ x.2.type = e.2.type ∧
      m.table.contains e.2.type = true ∧ x.2.disposal.flag? = none := by
  rw [copyPlan?] at h
  split at h
  · cases h
  next hc =>
  obtain ⟨owed, _, h⟩ := map_eq_ok.1 h
  rw [Option.some.injEq] at h
  subst h
  refine ⟨rfl, rfl, by simpa using hc, ?_⟩
  cases owed <;> rfl

theorem exists_copyPlan? {name : String} {b : Binding} (hc : m.table.contains b.type = true)
    {x : Option (Place × DestructionPlan)} (h : f.copyPlan? m (name, b) = .ok x) :
    ∃ d, x = some ({ binding := name }, d) ∧
      (f.ownership b = .owned → m.needsDestroy b.type = .ok true → d.disposal = .always) := by
  rw [copyPlan?, if_neg (by simp [hc])] at h
  obtain ⟨owed, howed, h⟩ := map_eq_ok.1 h
  refine ⟨_, h.symm, fun howned hneeds => ?_⟩
  rw [if_pos howned, liftType_eq_ok, hneeds, Except.ok.injEq] at howed
  rw [if_pos howed.symm]

theorem of_fallbackDestruction {plans : OrderedMap Place DestructionPlan}
    (h : f.fallbackDestruction m = .ok plans) {place : Place} {d : DestructionPlan}
    (hd : plans.get? place = some d) : m.table.contains d.type = true ∧ d.disposal.flag? = none := by
  rw [fallbackDestruction_eq] at h
  obtain ⟨found, hfound, rfl⟩ := map_eq_ok.1 h
  rw [OrderedMap.get?_ofList] at hd
  obtain ⟨x, hx, rfl⟩ := List.mem_filterMap.1 (mem_of_lastWrite hd)
  obtain ⟨e, _, hplan⟩ := mem_of_mapM hfound hx
  obtain ⟨_, htype, hc, hflag⟩ := of_copyPlan? hplan
  exact ⟨htype ▸ hc, hflag⟩

theorem exists_fallbackDestruction? {plans : OrderedMap Place DestructionPlan}
    (h : f.fallbackDestruction m = .ok plans) {name : String} {b : Binding} (hb : f.binding? name = some b)
    (hc : m.table.contains b.type = true) : ∃ d, plans.get? { binding := name } = some d ∧
      (f.ownership b = .owned → m.needsDestroy b.type = .ok true → d.disposal = .always) := by
  rw [fallbackDestruction_eq] at h
  obtain ⟨found, hfound, h⟩ := map_eq_ok.1 h
  have hmem : (name, b) ∈ (sortNames f.bindings.keys).filterMap fun name =>
      (f.binding? name).map fun b => (name, b) := by
    refine List.mem_filterMap.2 ⟨name, ?_, by rw [hb]; rfl⟩
    rw [sortNames, mem_sortBy, ← OrderedMap.contains_iff, OrderedMap.contains, ← binding?, hb]
    rfl
  obtain ⟨x, hx, hplan⟩ := exists_mem_of_mapM hfound hmem
  obtain ⟨d, rfl, howed⟩ := exists_copyPlan? hc hplan
  refine ⟨d, ?_, howed⟩
  rw [← h, OrderedMap.get?_ofList]
  refine lastWrite_eq_some (List.mem_filterMap.2 ⟨_, hx, rfl⟩) fun d' hd' => ?_
  -- another plan for the place is one for the same binding
  obtain ⟨x, hx, rfl⟩ := List.mem_filterMap.1 hd'
  obtain ⟨e, he, hplan'⟩ := mem_of_mapM hfound hx
  obtain ⟨name', _, he⟩ := List.mem_filterMap.1 he
  obtain ⟨b', hb', rfl⟩ := Option.map_eq_some_iff.1 he
  have hplace := (of_copyPlan? hplan').1
  rw [Place.mk.injEq] at hplace
  obtain rfl : name = name' := hplace.1
  rw [hb, Option.some.injEq] at hb'
  subst hb'
  rw [hplan] at hplan'
  exact (Prod.mk.inj (Option.some.inj (Except.ok.inj hplan'))).2.symm

/-- The fallback answers if every write that needs a plan finds the site before it. -/
theorem exists_fallbackPlan_iff {t : TypeTable} (ht : t.FieldsRegistered) (ds : List Diagnostic) :
    (∃ plan, f.fallbackPlan (TypeModel.build t) settings ds = .ok plan) ↔
      ∀ s ∈ f.allSites, f.PlansWrite (TypeModel.build t) s → f.SourceFound s := by
  constructor
  · rintro ⟨plan, h⟩ s hs hwrite
    obtain ⟨_, _, h⟩ := bind_eq_ok.1 h
    obtain ⟨assigns, hassigns, _⟩ := bind_eq_ok.1 h
    have hmem : s ∈ f.allSites.filter (·.kind = .write) :=
      List.mem_filter.2 ⟨hs, by simpa using hwrite.1⟩
    obtain ⟨x, _, hx⟩ := exists_mem_of_mapM hassigns hmem
    exact (exists_fallbackAssign?_iff ht hwrite.1).1 ⟨x, hx⟩ hwrite
  · intro h
    refine exists_bind (exists_fallbackDestruction t) fun _ _ => ?_
    refine exists_bind (exists_mapM fun s hs => ?_) fun _ _ => exists_pure
    rw [List.mem_filter, decide_eq_true_eq] at hs
    exact (exists_fallbackAssign?_iff ht hs.2).2 (h s hs.1)

/-- A plan that transfers nothing and has no run-time state. -/
structure Inert (plan : FunctionPlan) (ds : List Diagnostic) : Prop where
  excluded : plan.excluded = true
  diagnostics : plan.diagnostics = ds
  facts : plan.facts = none
  flags : plan.flags = []
  transfers : ∀ id d, plan.decisions.get? id = some d → d.transfers = false

theorem transfers_fallbackDecision (s : Site) : (f.fallbackDecision s).transfers = false := by
  rw [fallbackDecision]
  split
  · rfl
  · split
    · rfl
    · split
      · rfl
      · split
        · rfl
        · split <;> rfl

theorem inert_fallbackPlan {ds : List Diagnostic} (h : f.fallbackPlan m settings ds = .ok plan) :
    Inert plan ds := by
  obtain ⟨destruction, hdestruction, h⟩ := bind_eq_ok.1 h
  obtain ⟨assigns, _, h⟩ := bind_eq_ok.1 h
  rw [pure_eq_ok] at h
  subst h
  refine ⟨rfl, rfl, rfl, ?_, ?_⟩
  · rw [FunctionPlan.flags, List.filterMap_eq_nil_iff]
    intro d hd
    obtain ⟨⟨place, d⟩, hmem, rfl⟩ := List.mem_map.1 hd
    exact (of_fallbackDestruction hdestruction ((OrderedMap.get?_eq_some_iff _ _ _).2 hmem)).2
  · intro id d hd
    rw [OrderedMap.get?_ofList] at hd
    obtain ⟨s, _, heq⟩ := List.mem_map.1 (mem_of_lastWrite hd)
    rw [Prod.mk.injEq] at heq
    rw [← heq.2]
    exact transfers_fallbackDecision s

end Function
end MovePlan
