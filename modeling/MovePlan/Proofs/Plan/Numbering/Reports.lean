import MovePlan.Proofs.Plan.Numbering.Writes

set_option autoImplicit false

namespace MovePlan

/-- The texts differ only in the numbers of blocks. -/
inductive SameText (ρ : BlockId → BlockId) : String → String → Prop
  | text (x : String) : SameText ρ x x
  | block (id : BlockId) : SameText ρ s!"bb{id}" s!"bb{ρ id}"
  | append {x x' y y' : String} (hx : SameText ρ x x') (hy : SameText ρ y y') :
      SameText ρ (x ++ y) (x' ++ y')

structure Diagnostic.Renumbered (ρ : BlockId → BlockId) (x y : Diagnostic) : Prop where
  message : SameText ρ x.message y.message
  code : y.code = x.code
  phase : y.phase = x.phase
  severity : y.severity = x.severity
  span : y.span = x.span
  notes : List.Forall₂ (SameText ρ) x.notes y.notes

/-- The same diagnostics in some order, up to the block numbers in their texts. -/
def SameDiagnostics (ρ : BlockId → BlockId) (xs ys : List Diagnostic) : Prop :=
  ∃ zs, List.Forall₂ (Diagnostic.Renumbered ρ) xs zs ∧ ys.Perm zs

section
variable {ρ : BlockId → BlockId}

theorem Diagnostic.Renumbered.refl (x : Diagnostic) : x.Renumbered ρ x where
  message := .text _
  code := rfl
  phase := rfl
  severity := rfl
  span := rfl
  notes := List.forall₂_same.2 fun _ _ => .text _

theorem SameDiagnostics.of_perm {xs ys : List Diagnostic} (h : ys.Perm xs) : SameDiagnostics ρ xs ys :=
  ⟨xs, List.forall₂_same.2 fun x _ => .refl x, h⟩

theorem SameDiagnostics.append {xs xs' ys ys' : List Diagnostic} (h : SameDiagnostics ρ xs ys)
    (h' : SameDiagnostics ρ xs' ys') : SameDiagnostics ρ (xs ++ xs') (ys ++ ys') := by
  obtain ⟨zs, hzs, hperm⟩ := h
  obtain ⟨zs', hzs', hperm'⟩ := h'
  exact ⟨zs ++ zs', List.rel_append hzs hzs', hperm.append hperm'⟩

theorem SameDiagnostics.flatten {xss yss : List (List Diagnostic)}
    (h : List.Forall₂ (SameDiagnostics ρ) xss yss) : SameDiagnostics ρ xss.flatten yss.flatten := by
  induction h with
  | nil => exact .of_perm (.refl _)
  | cons hxs _ ih => exact hxs.append ih

theorem SameDiagnostics.hasErrors {xs ys : List Diagnostic} (h : SameDiagnostics ρ xs ys) :
    hasErrors ys = hasErrors xs := by
  obtain ⟨zs, hzs, hperm⟩ := h
  rw [MovePlan.hasErrors, hperm.any_eq, MovePlan.hasErrors]
  clear hperm
  induction hzs with
  | nil => rfl
  | cons hx _ ih => rw [List.any_cons, List.any_cons, ih, Diagnostic.isError, hx.severity, Diagnostic.isError]

end

namespace Function
variable {σ : Equiv.Perm BlockId} {ρ : BlockId → BlockId} {f : Function} {m : TypeModel} {settings : Settings}
  {moves moves' : List SiteId} {place : Place} {s : Site} {r r' : PlaceStates}

theorem describe?_eq {text : String} (h : s.describe? = some text) :
    text = s.kind.label ++ " " ++ dotted (s.binding.getD "<temp>") s.path ++ " @" ++ s!"bb{s.block}" ++
      s!"[{s.index}]" := by
  have hat : ∀ rest, toString " @bb" ++ rest = toString " @" ++ (toString "bb" ++ rest) := fun rest => by
    rw [← String.append_assoc]
    rfl
  obtain ⟨-, -, _, rfl, rfl⟩ := Site.describe?_eq_some.1 h
  simp only [String.append_assoc, hat]
  rfl

theorem sameText_describe (hblock : ρ s.block = σ s.block) {text text' : String} (h : s.describe? = some text)
    (h' : (s.renumber σ).describe? = some text') : SameText ρ text text' := by
  rw [describe?_eq h, describe?_eq h', Site.renumber_block, ← hblock]
  exact .append (.append (.text _) (.block _)) (.text _)

theorem sameText_moveNote (hblock : ρ s.block = σ s.block) {note note' : String}
    (h : moveNote? place s = some note) (h' : moveNote? place (s.renumber σ) = some note') :
    SameText ρ note note' := by
  obtain ⟨span, site, hspan, hsite, rfl⟩ := moveNote?_eq_some.1 h
  obtain ⟨span', site', hspan', hsite', rfl⟩ := moveNote?_eq_some.1 h'
  obtain rfl : span = span' := Option.some.inj (hspan.symm.trans hspan')
  exact .append (.append (.text _) (sameText_describe hblock hsite hsite')) (.text _)

theorem useAfterMove_renumber (wf : f.WellFormed) (hρ : f.SameNumbers σ ρ) (hsame : SameStates σ f r r')
    {movers : List Site} (hmovers : ∀ u ∈ movers, u ∈ f.allSites) (hs : s ∈ f.allSites)
    (hn : s.binding = some r.place.binding) {d d' : Diagnostic} (h : f.useAfterMove? movers r s = some d)
    (h' : (f.renumber σ).useAfterMove? (movers.map (Site.renumber σ)) r' (s.renumber σ) = some d') :
    d.Renumbered ρ d' := by
  obtain ⟨site, notes, hsite, hnotes, rfl⟩ := useAfterMove?_eq_some.1 h
  obtain ⟨site', notes', hsite', hnotes', rfl⟩ := useAfterMove?_eq_some.1 h'
  constructor
  case message =>
    simp only [goneWord, hsame.place, Site.renumber_id, hsame.stateBefore hs hn]
    exact .append (.append (.text _) (sameText_describe (hρ.block wf hs) hsite hsite')) (.text _)
  case notes =>
    rw [hsame.place, mapM_eq_some, List.forall₂_map_left_iff] at hnotes'
    exact forall₂_of_forall₂ (mapM_eq_some.1 hnotes) hnotes' fun u hu _ _ =>
      sameText_moveNote (hρ.block wf (hmovers u hu))
  all_goals rfl

theorem exists_perm_of_mapM {ε α β : Type} {g : α → Except ε β} {xs xs' : List α} {ys' : List β}
    (hperm : xs'.Perm xs) (h : xs'.mapM g = .ok ys') : ∃ ys, xs.mapM g = .ok ys ∧ ys'.Perm ys := by
  obtain ⟨ys, hys, hperm'⟩ := List.perm_comp_forall₂ hperm.symm (mapM_eq_ok.1 h)
  exact ⟨ys, mapM_eq_ok.2 hys, hperm'.symm⟩

/-- The reports for one place say the same. -/
theorem reports_renumber (wf : f.WellFormed) (wf' : (f.renumber σ).WellFormed) (hρ : f.SameNumbers σ ρ)
    (hmoves : ∀ id, id ∈ moves' ↔ id ∈ moves) {movers : List Site} (hmovers : ∀ u ∈ movers, u ∈ f.allSites)
    (hr : f.placeStatesIn f.graph moves place = .ok r)
    (hr' : (f.renumber σ).placeStatesIn (f.renumber σ).graph moves' place = .ok r') {ds ds' : List Diagnostic}
    (h : ((f.sitesOf place.binding).filter (isUseOfMoved r)).mapM
      (fun s => optionOr .longNumber (f.useAfterMove? movers r s)) = .ok ds)
    (h' : (((f.renumber σ).sitesOf place.binding).filter (isUseOfMoved r')).mapM (fun s => optionOr .longNumber
      ((f.renumber σ).useAfterMove? (movers.map (Site.renumber σ)) r' s)) = .ok ds') :
    SameDiagnostics ρ ds ds' := by
  obtain ⟨b, hb, -⟩ := bind_eq_ok.1 hr
  rw [getBinding, optionOr_eq_ok] at hb
  have hstates := sameStates_renumber wf wf' hmoves hb hr hr'
  have hplace : r.place = place := placeStates_place hr
  have huses : ((f.sitesOf place.binding).map (Site.renumber σ)).filter (isUseOfMoved r') =
      ((f.sitesOf place.binding).filter (isUseOfMoved r)).map (Site.renumber σ) := by
    rw [List.filter_map]
    refine congrArg _ (List.filter_congr fun s hs => ?_)
    obtain ⟨hs, hn⟩ := mem_sitesOf.1 hs
    simp only [Function.comp_apply, isUseOfMoved, PlaceStates.mayBeMovedBefore, Site.renumber_id,
      hstates.place, hstates.before s hs (hplace ▸ hn)]
    rfl
  obtain ⟨zs, hzs, hperm⟩ := exists_perm_of_mapM ((sitesOf_renumber place.binding).filter _) h'
  rw [huses, mapM_eq_ok, List.forall₂_map_left_iff] at hzs
  refine ⟨zs, forall₂_of_forall₂ (mapM_eq_ok.1 h) hzs fun s hs d d' hd hd' => ?_, hperm⟩
  obtain ⟨hs, hn⟩ := mem_sitesOf.1 (List.mem_of_mem_filter hs)
  exact useAfterMove_renumber wf hρ hstates hmovers hs (hplace ▸ hn) (optionOr_eq_ok.1 hd) (optionOr_eq_ok.1 hd')

theorem explicitMoves_renumber (wf' : (f.renumber σ).WellFormed) (hmoves : moves'.Perm moves)
    {movers : List Site} (h : f.explicitMoves moves = .ok movers) :
    (f.renumber σ).explicitMoves moves' = .ok (movers.map (Site.renumber σ)) := by
  obtain ⟨moved, hmoved, h⟩ := bind_eq_ok.1 h
  obtain rfl := pure_eq_ok.1 h
  refine bind_eq_ok.2 ⟨_, moved_renumber wf' hmoves hmoved, ?_⟩
  rw [List.filter_map]
  rfl

theorem checkUseAfterMove_renumber (wf : f.WellFormed) (wf' : (f.renumber σ).WellFormed)
    (hρ : f.SameNumbers σ ρ) (hmoves : moves'.Perm moves) {ds ds' : List Diagnostic}
    (h : f.checkUseAfterMove moves = .ok ds) (h' : (f.renumber σ).checkUseAfterMove moves' = .ok ds') :
    SameDiagnostics ρ ds ds' := by
  obtain ⟨movers, hmovers, h⟩ := bind_eq_ok.1 h
  obtain ⟨reports, hreports, h⟩ := bind_eq_ok.1 h
  obtain ⟨movers', hmovers', h'⟩ := bind_eq_ok.1 h'
  obtain ⟨reports', hreports', h'⟩ := bind_eq_ok.1 h'
  obtain rfl := pure_eq_ok.1 h
  obtain rfl := pure_eq_ok.1 h'
  obtain rfl := Except.ok.inj ((explicitMoves_renumber wf' hmoves hmovers).symm.trans hmovers')
  have hplaces : movedPlaces (movers.map (Site.renumber σ)) = movedPlaces movers := by
    rw [movedPlaces, List.filterMap_map]
    rfl
  rw [hplaces] at hreports'
  refine .flatten (forall₂_of_forall₂ (mapM_eq_ok.1 hreports) (mapM_eq_ok.1 hreports') ?_)
  intro place _ ds ds' hds hds'
  obtain ⟨r, hr, hds⟩ := bind_eq_ok.1 hds
  obtain ⟨r', hr', hds'⟩ := bind_eq_ok.1 hds'
  have hreach : (movers.map (Site.renumber σ)).filter (·.reaches place) =
      (movers.filter (·.reaches place)).map (Site.renumber σ) := List.filter_map
  rw [hreach] at hds'
  have hall : ∀ u ∈ movers.filter (·.reaches place), u ∈ f.allSites := fun u hu =>
    ((mem_explicitMoves wf hmovers).1 (List.mem_of_mem_filter hu)).1
  exact reports_renumber wf wf' hρ (fun _ => hmoves.mem_iff) hall hr hr' hds hds'

theorem fallbackDecision_renumber (s : Site) :
    (f.renumber σ).fallbackDecision (s.renumber σ) = f.fallbackDecision s := by
  simp only [fallbackDecision, returnsForwarded_renumber]
  rfl

theorem namedBindings_renumber :
    ((sortNames (f.renumber σ).bindings.keys).filterMap fun name =>
        ((f.renumber σ).binding? name).map fun b => (name, b)) =
      ((sortNames f.bindings.keys).filterMap fun name => (f.binding? name).map fun b => (name, b)).map
        fun p => (p.1, p.2.renumber σ) := by
  rw [keys_renumber, List.map_filterMap]
  refine List.filterMap_congr fun name _ => ?_
  rw [binding?_renumber, Option.map_map, Option.map_map]
  rfl

theorem fallbackDestruction_renumber : (f.renumber σ).fallbackDestruction m = f.fallbackDestruction m := by
  rw [fallbackDestruction, fallbackDestruction, namedBindings_renumber, List.mapM_map]
  rfl

theorem fallbackAssign?_renumber {v : Option (SiteId × AssignPlan)}
    (h : f.fallbackAssign? m settings s = .ok v) :
    (f.renumber σ).fallbackAssign? m settings (s.renumber σ) = .ok v := by
  have hfound : ((s.renumber σ).binding.bind fun name =>
        ((f.renumber σ).binding? name).map fun b => (name, b)) =
      (s.binding.bind fun name => (f.binding? name).map fun b => (name, b)).map
        fun p => (p.1, p.2.renumber σ) := by
    rw [Site.renumber_binding]
    cases s.binding with
    | none => rfl
    | some name =>
      simp only [Option.bind_some, binding?_renumber, Option.map_map]
      rfl
  rw [fallbackAssign?] at h ⊢
  rw [hfound]
  cases hbound : s.binding.bind fun name => (f.binding? name).map fun b => (name, b) with
  | none =>
    rw [hbound] at h
    exact h
  | some p =>
    rw [hbound] at h
    simp only [Option.map_some, leafType?_renumber, Site.renumber_path, Site.renumber_id] at h ⊢
    cases hleaf : m.leafType? p.2 s.path with
    | none =>
      simp only [hleaf] at h
      exact h
    | some leaf =>
      simp only [hleaf] at h
      obtain ⟨relevant, hrelevant, h⟩ := bind_eq_ok.1 h
      refine bind_eq_ok.2 ⟨relevant, hrelevant, ?_⟩
      cases relevant with
      | false => exact h
      | true =>
        obtain ⟨needs, hneeds, h⟩ := bind_eq_ok.1 h
        obtain ⟨source, hsource, h⟩ := bind_eq_ok.1 h
        exact bind_eq_ok.2 ⟨needs, hneeds, bind_eq_ok.2 ⟨source, assignSource_renumber hsource, h⟩⟩

theorem site_of_fallbackAssign? {e : SiteId × AssignPlan}
    (h : f.fallbackAssign? m settings s = .ok (some e)) : e.1 = s.id := by
  rw [fallbackAssign?] at h
  split at h
  · cases h
  split at h
  · cases h
  obtain ⟨relevant, _, h⟩ := bind_eq_ok.1 h
  cases relevant with
  | false => cases h
  | true =>
    obtain ⟨_, _, h⟩ := bind_eq_ok.1 h
    obtain ⟨_, _, h⟩ := bind_eq_ok.1 h
    cases h
    rfl

theorem findsMoved_renumber (hmoves : ∀ id, id ∈ moves' ↔ id ∈ moves)
    (h : (f.renumber σ).FindsMoved moves' place (s.renumber σ)) : f.FindsMoved moves place s := by
  obtain ⟨b', hb', hin, hcomes⟩ := h.run
  rw [binding?_renumber] at hb'
  obtain ⟨b, hb, rfl⟩ := Option.map_eq_some_iff.1 hb'
  exact ⟨mem_allSites_renumber.1 h.site, h.name, h.access, h.overlaps, h.uses, b, hb,
    (Binding.inRegion_renumber _ _).symm.trans hin, (comesTo_renumber hmoves).1 hcomes⟩

theorem movesExplicitly_renumber (hmoves : ∀ id, id ∈ moves' ↔ id ∈ moves)
    (h : (f.renumber σ).MovesExplicitly moves' place (s.renumber σ)) : f.MovesExplicitly moves place s :=
  ⟨mem_allSites_renumber.1 h.1, (hmoves _).1 h.2.1, h.2.2⟩

theorem isSome_describe?_renumber (h : s.describe?.isSome = true) (hblock : Numeral.isPrintable (σ s.block) = true) :
    (s.renumber σ).describe?.isSome = true :=
  Site.isSome_describe?.2 ⟨hblock, (Site.isSome_describe?.1 h).2⟩

theorem reportsLegible_renumber (wf : f.WellFormed) (hmoves : ∀ id, id ∈ moves' ↔ id ∈ moves)
    (hprintable : ∀ id, f.hasBlock id = true → Numeral.isPrintable (σ id) = true) (h : f.ReportsLegible moves) :
    (f.renumber σ).ReportsLegible moves' := by
  have hblock : ∀ {s : Site}, s ∈ f.allSites → Numeral.isPrintable (σ s.block) = true := fun hs =>
    hprintable _ (hasBlock_of_mem_sitesAt (wf.mem_sitesAt hs))
  intro place u' s' hu hs
  obtain ⟨u, -, rfl⟩ := exists_of_mem_allSites_renumber hu.1
  obtain ⟨s, -, rfl⟩ := exists_of_mem_allSites_renumber hs.site
  obtain ⟨hsite, hmovers⟩ := h place u s (movesExplicitly_renumber hmoves hu) (findsMoved_renumber hmoves hs)
  refine ⟨isSome_describe?_renumber hsite (hblock (mem_allSites_renumber.1 hs.site)), fun v' hv' hmem he hreaches => ?_⟩
  obtain ⟨v, hv, rfl⟩ := exists_of_mem_allSites_renumber hv'
  obtain ⟨hposition, hspan⟩ := hmovers v hv ((hmoves _).1 hmem) he hreaches
  exact ⟨isSome_describe?_renumber hposition (hblock hv), hspan⟩

theorem usesMoved_renumber (hmoves : ∀ id, id ∈ moves' ↔ id ∈ moves) (h : (f.renumber σ).UsesMoved moves') :
    f.UsesMoved moves := by
  obtain ⟨place, u', s', hu, hs⟩ := h
  obtain ⟨u, -, rfl⟩ := exists_of_mem_allSites_renumber hu.1
  obtain ⟨s, -, rfl⟩ := exists_of_mem_allSites_renumber hs.site
  exact ⟨place, u, s, movesExplicitly_renumber hmoves hu, findsMoved_renumber hmoves hs⟩

theorem violations_renumber {ws : List Diagnostic} (h : f.violations m = .ok ws) :
    ∃ ws', (f.renumber σ).violations m = .ok ws' ∧ ws'.Perm ws := by
  obtain ⟨bindings, hbindings, h⟩ := bind_eq_ok.1 h
  obtain ⟨temps, htemps, h⟩ := bind_eq_ok.1 h
  obtain rfl := pure_eq_ok.1 h
  refine (sites_renumber (σ := σ) ?_ htemps).elim fun temps' h =>
    ⟨(bindings ++ temps').filterMap id, bind_eq_ok.2 ⟨bindings, ?_, bind_eq_ok.2 ⟨temps', h.1, rfl⟩⟩,
      (h.2.append_left _).filterMap _⟩
  · exact fun _ => rfl
  · rw [namedBindings_renumber, List.mapM_map]
    exact hbindings

end Function
end MovePlan
