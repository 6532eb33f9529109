import Mathlib.SetTheory.Cardinal.Arithmetic
import MovePlan.Proofs.Flow.Events
import MovePlan.Proofs.Plan.Numbering.Reports

set_option autoImplicit false

namespace MovePlan

structure FunctionPlan.Renumbered (ρ : BlockId → BlockId) (x y : FunctionPlan) : Prop where
  name : y.name = x.name
  excluded : y.excluded = x.excluded
  decisions : ∀ id, y.decisions.get? id = x.decisions.get? id
  destruction : ∀ place, Option.Rel (DestructionPlan.Renumbered ρ) (x.destruction.get? place)
    (y.destruction.get? place)
  assigns : ∀ id, y.assigns.get? id = x.assigns.get? id
  diagnostics : SameDiagnostics ρ x.diagnostics y.diagnostics
  nested : y.nested = x.nested

namespace Function
variable {σ : Equiv.Perm BlockId} {ρ : BlockId → BlockId} {f : Function} {t : TypeTable} {m : TypeModel}
  {settings : Settings} {x y : FunctionPlan}

theorem renumbered_of_no_flag {d : DestructionPlan} (h : d.disposal.flag? = none) : d.Renumbered ρ d := by
  refine ⟨rfl, ?_, rfl, rfl⟩
  cases hd : d.disposal with
  | always => exact .always
  | never => exact .never
  | guarded flag =>
    rw [hd] at h
    cases h

theorem fallbackPlan_renumber (wf : f.WellFormed) {ds ds' : List Diagnostic} (hds : SameDiagnostics ρ ds ds')
    (h : f.fallbackPlan m settings ds = .ok x) :
    ∃ y, (f.renumber σ).fallbackPlan m settings ds' = .ok y ∧ x.Renumbered ρ y := by
  obtain ⟨destruction, hdestruction, h⟩ := bind_eq_ok.1 h
  obtain ⟨assigns, hassigns, h⟩ := bind_eq_ok.1 h
  obtain rfl := pure_eq_ok.1 h
  obtain ⟨assigns', hassigns', hwrites⟩ := writes_renumber (σ := σ) wf
    (fun s _ v hv => fallbackAssign?_renumber hv) (fun s e he => site_of_fallbackAssign? he) hassigns
  refine ⟨_, bind_eq_ok.2 ⟨destruction, fallbackDestruction_renumber.trans hdestruction,
    bind_eq_ok.2 ⟨assigns', hassigns', rfl⟩⟩, rfl, rfl, ?_, fun place => ?_, hwrites, hds, rfl⟩
  · refine OrderedMap.get?_ofList_congr (fun e => ?_) fun id v w hv hw => ?_
    · have hperm : ((f.renumber σ).decidedSites.map fun s => (s.id, (f.renumber σ).fallbackDecision s)).Perm
          (f.decidedSites.map fun s => (s.id, f.fallbackDecision s)) := by
        refine ((allSites_renumber.filter _).map _).trans (.of_eq ?_)
        rw [List.filter_map, List.map_map]
        exact List.map_congr_left fun s _ => congrArg (Prod.mk s.id) (fallbackDecision_renumber s)
      exact hperm.mem_iff
    · obtain ⟨s, hs, hv⟩ := List.mem_map.1 hv
      obtain ⟨s', hs', hw⟩ := List.mem_map.1 hw
      obtain rfl := wf.id_inj (mem_decidedSites.1 hs).1 (mem_decidedSites.1 hs').1
        ((congrArg Prod.fst hv).trans (congrArg Prod.fst hw).symm)
      exact (congrArg Prod.snd hv).symm.trans (congrArg Prod.snd hw)
  · cases hd : destruction.get? place with
    | none => exact .none
    | some d => exact .some (renumbered_of_no_flag (of_fallbackDestruction hdestruction hd).2)

theorem transferring_renumber (wf : f.WellFormed) (wf' : (f.renumber σ).WellFormed)
    {facts facts' : LastUseFacts} (hfacts : SameFacts f facts facts') {ds ds' : OrderedMap SiteId UseDecision}
    (h : f.decisions m settings facts = .ok ds)
    (h' : (f.renumber σ).decisions m settings facts' = .ok ds') : (transferring ds').Perm (transferring ds) := by
  refine (List.perm_ext_iff_of_nodup (nodup_transferring _) (nodup_transferring _)).2 fun id => ?_
  rw [mem_transferring_get?, mem_transferring_get?, get?_decisions_renumber wf wf' hfacts h h']

theorem ownPlan_renumber (wf : f.WellFormed) (wf' : (f.renumber σ).WellFormed) (hρ : f.SameNumbers σ ρ)
    (hone : f.DeclaredOnce) {facts facts' : LastUseFacts} (hfacts : SameFacts f facts facts')
    (h : f.ownPlan m settings facts = .ok x) (h' : (f.renumber σ).ownPlan m settings facts' = .ok y) :
    x.Renumbered ρ y := by
  obtain ⟨ds, hds, h⟩ := bind_eq_ok.1 h
  obtain ⟨uses, huses, h⟩ := bind_eq_ok.1 h
  obtain ⟨ds', hds', h'⟩ := bind_eq_ok.1 h'
  obtain ⟨uses', huses', h'⟩ := bind_eq_ok.1 h'
  have hmoves := transferring_renumber wf wf' hfacts hds hds'
  have hsame := checkUseAfterMove_renumber wf wf' hρ hmoves huses huses'
  rw [hsame.hasErrors] at h'
  split at h
  next herr =>
    rw [if_pos herr] at h'
    obtain ⟨y', hy', hxy⟩ := fallbackPlan_renumber (σ := σ) wf hsame h
    obtain rfl : y' = y := Except.ok.inj (hy'.symm.trans h')
    exact hxy
  next herr =>
    rw [if_neg herr] at h'
    obtain ⟨destruction, hdestruction, h⟩ := bind_eq_ok.1 h
    obtain ⟨assigns, hassigns, h⟩ := bind_eq_ok.1 h
    obtain rfl := pure_eq_ok.1 h
    obtain ⟨destruction', hdestruction', hstep⟩ :=
      destructionPlans_renumber wf wf' hρ hone hmoves hdestruction
    obtain ⟨assigns', hassigns', hwrites⟩ :=
      assignPlans_renumber wf wf' (fun _ => hmoves.mem_iff) hstep hassigns
    obtain ⟨destruction'', hdestruction'', h'⟩ := bind_eq_ok.1 h'
    obtain rfl := Except.ok.inj (hdestruction'.symm.trans hdestruction'')
    obtain ⟨assigns'', hassigns'', h'⟩ := bind_eq_ok.1 h'
    obtain rfl := Except.ok.inj (hassigns'.symm.trans hassigns'')
    obtain rfl := pure_eq_ok.1 h'
    exact ⟨rfl, rfl, get?_decisions_renumber wf wf' hfacts hds hds', hstep.get?, hwrites, hsame, rfl⟩

theorem bodyPlan_renumber (hone : f.DeclaredOnce) (hρ : f.SameNumbers σ ρ) (hv : f.validate (some m) = .ok [])
    (h : f.bodyPlan m settings = .ok x) (h' : (f.renumber σ).bodyPlan m settings = .ok y) :
    x.Renumbered ρ y := by
  have hv' := validate_renumber (σ := σ) hv
  have wf := wellFormed_of_validate hv rfl
  have wf' := wellFormed_of_validate hv' rfl
  obtain ⟨defects, hdefects, h⟩ := bind_eq_ok.1 h
  obtain rfl : [] = defects := Except.ok.inj (hv.symm.trans hdefects)
  obtain ⟨defects', hdefects', h'⟩ := bind_eq_ok.1 h'
  obtain rfl : [] = defects' := Except.ok.inj (hv'.symm.trans hdefects')
  rw [if_neg (by simp [hasErrors])] at h h'
  obtain ⟨ws, hws, h⟩ := bind_eq_ok.1 h
  obtain ⟨ws', hws', h'⟩ := bind_eq_ok.1 h'
  obtain ⟨ws'', hws'', hperm⟩ := violations_renumber (σ := σ) hws
  obtain rfl : ws'' = ws' := Except.ok.inj (hws''.symm.trans hws')
  rw [hperm.isEmpty_eq] at h'
  split at h
  next hne =>
    rw [if_pos hne] at h'
    obtain ⟨y', hy', hxy⟩ := fallbackPlan_renumber (σ := σ) wf (.of_perm (ρ := ρ) hperm) h
    obtain rfl : y' = y := Except.ok.inj (hy'.symm.trans h')
    exact hxy
  next hnone =>
    rw [if_neg hnone] at h'
    obtain ⟨facts, hfacts, h⟩ := bind_eq_ok.1 h
    obtain ⟨own, hown, h⟩ := bind_eq_ok.1 h
    obtain rfl := pure_eq_ok.1 h
    obtain ⟨facts', hfacts', h'⟩ := bind_eq_ok.1 h'
    obtain ⟨own', hown', h'⟩ := bind_eq_ok.1 h'
    obtain rfl := pure_eq_ok.1 h'
    have hsame := sameFacts_renumber wf wf' (liftType_eq_ok.1 hfacts) (liftType_eq_ok.1 hfacts')
    have hxy := ownPlan_renumber wf wf' hρ hone hsame hown hown'
    exact ⟨hxy.name, hxy.excluded, hxy.decisions, hxy.destruction, hxy.assigns, hxy.diagnostics, hxy.nested⟩

/-- A renumbered function can fail in its reports only: it must be excluded, and a number be too long. -/
theorem answerable_renumber (ht : t.FieldsRegistered) (hv : f.validate (some (TypeModel.build t)) = .ok [])
    (hprintable : x.excluded = true → ∀ id, f.hasBlock id = true → Numeral.isPrintable (σ id) = true)
    (h : f.bodyPlan (TypeModel.build t) settings = .ok x) :
    (f.renumber σ).Answerable (TypeModel.build t) settings := by
  have hv' := validate_renumber (σ := σ) hv
  have wf := wellFormed_of_validate hv rfl
  have wf' := wellFormed_of_validate hv' rfl
  have hnone' := findings_of_validate hv' rfl
  have hwrites : ∀ s ∈ (f.renumber σ).allSites, (f.renumber σ).PlansWrite (TypeModel.build t) s →
      (f.renumber σ).SourceFound s := fun s hs _ => wf'.sourceFound hs
  refine ⟨(validate_eq_ok.1 hv').1, by simp [hnone', Describable], hwrites, fun _ hquiet' => ?_⟩
  obtain ⟨ws, hws, -, hjudged⟩ := bodyPlan_cases hv h
  obtain ⟨ws', hws', hperm⟩ := violations_renumber (σ := σ) hws
  obtain rfl : ws' = [] := Except.ok.inj (hws'.symm.trans hquiet')
  obtain ⟨facts, ds, hfacts, hds, hjudged⟩ := hjudged (List.perm_nil.1 hperm.symm)
  obtain ⟨paths, hreports⟩ := (answerable_of_bodyPlan ht h).own (findings_of_validate hv rfl)
    (hws.trans (congrArg _ (List.perm_nil.1 hperm.symm)))
  refine ⟨?_, fun facts' ds' hfacts' hds' => ?_⟩
  · intro s' name b' hs' ha hn hb'
    obtain ⟨s, -, rfl⟩ := exists_of_mem_allSites_renumber hs'
    rw [binding?_renumber] at hb'
    obtain ⟨b, hb, rfl⟩ := Option.map_eq_some_iff.1 hb'
    obtain ⟨p, hp⟩ := paths (mem_allSites_renumber.1 hs') ha hn hb
    exact ⟨p, hp⟩
  · have hmoves : ∀ id, id ∈ transferring ds' ↔ id ∈ transferring ds := fun _ =>
      (transferring_renumber wf wf' (sameFacts_renumber wf wf' hfacts hfacts') hds hds').mem_iff
    cases hx : x.excluded with
    | true => exact reportsLegible_renumber wf hmoves (hprintable hx) (hreports facts ds hfacts hds)
    | false =>
      intro place u s hu hs
      exact absurd (hjudged.excluded.2 (usesMoved_renumber hmoves ⟨place, u, s, hu, hs⟩)) (by simp [hx])

theorem exists_perm (hinj : Set.InjOn ρ {id | f.hasBlock id = true}) :
    ∃ σ : Equiv.Perm BlockId, f.SameNumbers σ ρ := by
  have hfinite : {id | f.hasBlock id = true}.Finite := by
    refine f.blocks.keys.finite_toSet.subset fun id hid => ?_
    obtain ⟨blk, hblk⟩ := hasBlock_iff.1 hid
    exact mem_keys_of_block? hblk
  obtain ⟨σ, hσ⟩ := Cardinal.extend_function_of_lt
    ⟨fun id : {id | f.hasBlock id = true} => ρ id, fun x y h => Subtype.ext (hinj x.2 y.2 h)⟩
    ((Cardinal.lt_aleph0_iff_set_finite.2 hfinite).trans_le (Cardinal.aleph0_le_mk BlockId)) ⟨.refl BlockId⟩
  exact ⟨σ, fun id hid => (hσ ⟨id, hid⟩).symm⟩

theorem renumber_congr {model : Option TypeModel} (hv : f.validate model = .ok []) (hρ : f.SameNumbers σ ρ) :
    f.renumber ρ = f.renumber σ := by
  have wf := wellFormed_of_validate hv rfl
  have hblock : ∀ e ∈ f.blocks.entries, (ρ e.1, e.2.renumber ρ) = (σ e.1, e.2.renumber σ) := by
    rintro ⟨id, blk⟩ he
    have hget : f.block? id = some blk := (OrderedMap.get?_eq_some_iff ..).2 he
    have hid : ρ id = σ id := hρ id (hasBlock_iff.2 ⟨blk, hget⟩)
    have hsites : blk.sites.map (Site.renumber ρ) = blk.sites.map (Site.renumber σ) :=
      List.map_congr_left fun s hs => by
        rw [Site.renumber, Site.renumber, wf.block (sitesAt_eq hget ▸ hs), hid]
    have hedges : blk.edges.map (Edge.renumber ρ) = blk.edges.map (Edge.renumber σ) :=
      List.map_congr_left fun e he => by
        rw [← edgesAt_eq hget] at he
        rw [Edge.renumber, Edge.renumber, src_of_validate hv rfl he, hid, hρ _ (wf.target he)]
    rw [Block.renumber, Block.renumber, hsites, hedges, hid]
  have hbinding : ∀ e ∈ f.bindings.entries, (e.1, e.2.renumber ρ) = (e.1, e.2.renumber σ) := by
    rintro ⟨name, b⟩ he
    have hb : f.binding? name = some b := (OrderedMap.get?_eq_some_iff ..).2 he
    have hregion : b.region.map (List.map ρ) = b.region.map (List.map σ) := by
      cases hr : b.region with
      | none => rfl
      | some region =>
        refine congrArg some (List.map_congr_left fun id hid => hρ id ?_)
        by_contra h
        exact unflawed_of_validate hv rfl _ (.unknownRegionBlocks hb hr hid (by simpa using h))
    rw [Binding.renumber, Binding.renumber, hregion]
  have hbindings : (f.bindings.mapEntries fun _ b => b.renumber ρ) =
      f.bindings.mapEntries fun _ b => b.renumber σ :=
    OrderedMap.ext_entries (List.map_congr_left hbinding)
  rw [renumber, renumber, List.map_congr_left hblock, hρ _ wf.entry, hbindings]

/-- Renumbering the blocks of an accepted function leaves its plan as it is, up to the numbers. There is a plan
unless the function is excluded and a new number has too many digits for its reports. -/
theorem planFunction_renumber (hf : Produced f ∨ Construction.Makes f) (ht : t.Built)
    (hv : f.validate (some (TypeModel.build t)) = .ok [])
    (hinj : Set.InjOn ρ {id | f.hasBlock id = true})
    (hplan : planFunction (TypeModel.build t) settings f = .ok x) :
    (∀ y, planFunction (TypeModel.build t) settings (f.renumber ρ) = .ok y → x.Renumbered ρ y) ∧
    ((x.excluded = true → ∀ id, f.hasBlock id = true → Numeral.isPrintable (ρ id) = true) →
      ∃ y, planFunction (TypeModel.build t) settings (f.renumber ρ) = .ok y) := by
  have hdeclared : f.DeclaredOnce := hf.elim Produced.declaredOnce Construction.Makes.declaredOnce
  obtain ⟨σ, hρ⟩ := exists_perm hinj
  obtain ⟨body, inner, hbody, hinner, rfl⟩ := planFunction_eq_ok.1 hplan
  rw [renumber_congr hv hρ]
  refine ⟨fun y hy => ?_, fun hprintable => ?_⟩
  · obtain ⟨body', inner', hbody', hinner', rfl⟩ := planFunction_eq_ok.1 hy
    obtain rfl : inner = inner' := Except.ok.inj ((mapM_eq_ok.2 hinner).symm.trans (mapM_eq_ok.2 hinner'))
    have hxy := bodyPlan_renumber (σ := σ) hdeclared hρ hv hbody hbody'
    exact ⟨hxy.name, hxy.excluded, hxy.decisions, hxy.destruction, hxy.assigns, hxy.diagnostics, rfl⟩
  · obtain ⟨body', hbody'⟩ := (answerable_renumber ht.fieldsRegistered hv
      (fun hx id hid => hρ id hid ▸ hprintable hx id hid) hbody).exists_bodyPlan ht.fieldsRegistered
    exact ⟨_, planFunction_eq_ok.2 ⟨body', inner, hbody', hinner, rfl⟩⟩

def flaggedInLoop : Function :=
  (Script.run .standard "f" .empty [
    .declare "t" (.named "Str"),
    .loop [] [
      .breakLoopIf 0,
      .branchThen [.moveOut (.place "t") (some (.argument "g" 0 .value false false)) true false],
      .access .write "t"]]).function

def flaggedInLoopPlan : FunctionPlan :=
  (planFunction (TypeModel.build .standard) {} flaggedInLoop).toOption.getD default

theorem planFunction_flaggedInLoop :
    planFunction (TypeModel.build .standard) {} flaggedInLoop = .ok flaggedInLoopPlan :=
  eq_ok_of_isOk (by decide +kernel)

theorem renumber_flaggedInLoop :
    flaggedInLoopPlan.flags.map (fun flag => (flag.clears.map ClearPoint.block, flag.sets.map SetPoint.block)) =
        [([5], [7])] ∧
      ∃ y, planFunction (TypeModel.build .standard) {} (flaggedInLoop.renumber fun id => -id) = .ok y ∧
        flaggedInLoopPlan.Renumbered (fun id => -id) y := by
  obtain ⟨hsame, hexists⟩ := planFunction_renumber (ρ := fun id => -id) (.inl (.script ..)) TypeTable.standard_built
    (by decide +kernel) (fun _ _ _ _ h => neg_inj.1 h) planFunction_flaggedInLoop
  have hopen : flaggedInLoopPlan.excluded = false := by decide +kernel
  obtain ⟨y, hy⟩ := hexists (by simp [hopen])
  exact ⟨by decide +kernel, y, hy, hsame y hy⟩

def readAfterTake : Function :=
  (Script.run .standard "f" .empty [
    .declare "t" (.named "Str"),
    .moveOut (.place "t") (some (.argument "g" 0 .value false false)) true false,
    .access .read "t"]).function

/-- The plan is lost if the only block gets a number of one digit too many. -/
theorem renumber_refuses :
    Produced readAfterTake ∧ readAfterTake.validate (some (TypeModel.build .standard)) = .ok [] ∧
      (fun id : BlockId => id + 10 ^ Numeral.maxLength).Injective ∧
      ((planFunction (TypeModel.build .standard) {} readAfterTake).map FunctionPlan.excluded) = .ok true ∧
      ((planFunction (TypeModel.build .standard) {}
        (readAfterTake.renumber fun id => id + 10 ^ Numeral.maxLength)).map fun _ => ()) = .error .longNumber :=
  ⟨.script .., by decide +kernel, add_left_injective _, by decide +kernel, by decide +kernel⟩

end Function
end MovePlan
