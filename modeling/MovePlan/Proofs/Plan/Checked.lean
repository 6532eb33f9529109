import MovePlan.Proofs.Plan.Disposal

set_option autoImplicit false

namespace MovePlan.Function
variable {f : Function} {moves : List SiteId} {place : Place} {b : Binding} {s : Site}

/-- The sites that transfer ownership by a list of decisions. -/
def transferring (ds : OrderedMap SiteId UseDecision) : List SiteId :=
  (ds.entries.filter (·.2.transfers)).map Prod.fst

/-- Some run comes to the access and finds that the value of the place was moved out. -/
structure FindsMoved (f : Function) (moves : List SiteId) (place : Place) (s : Site) : Prop where
  site : s ∈ f.allSites
  name : s.binding = some place.binding
  access : s.isAccess = true
  overlaps : place.path <+: s.path ∨ s.path <+: place.path
  uses : ¬ (s.kind = .write ∧ s.path <+: place.path)
  run : ∃ b, f.binding? place.binding = some b ∧ b.inRegion s.block = true ∧
    ∃ es c before after, f.Walk f.entry es c ∧ f.trace f.entry es = before ++ .pass s :: after ∧
      f.conditionOn moves place b before = .moved

/-- An explicit move takes the place and nothing else. -/
def MovesExplicitly (f : Function) (moves : List SiteId) (place : Place) (u : Site) : Prop :=
  u ∈ f.allSites ∧ u.id ∈ moves ∧ u.explicit = true ∧ u.binding = some place.binding ∧ u.path = place.path

def UsesMoved (f : Function) (moves : List SiteId) : Prop :=
  ∃ place u s, f.MovesExplicitly moves place u ∧ f.FindsMoved moves place s

/-- Every access that finds a moved value can be named in a report, and so can the moves that the report
lists. -/
def ReportsLegible (f : Function) (moves : List SiteId) : Prop :=
  ∀ place u s, f.MovesExplicitly moves place u → f.FindsMoved moves place s → s.describe?.isSome = true ∧
    ∀ v ∈ f.allSites, v.id ∈ moves → v.explicit = true → v.reaches place = true → v.Legible

theorem Legible.reports (h : f.Legible) (moves : List SiteId) : f.ReportsLegible moves :=
  fun _ _ s _ huse => ⟨(h s huse.site).position, fun v hv _ _ _ => h v hv⟩

theorem isUseOfMoved_iff (wf : f.WellFormed) {r : PlaceStates} (hb : f.binding? place.binding = some b)
    (h : f.placeStatesIn f.graph moves place = .ok r) (hs : s ∈ f.allSites)
    (hn : s.binding = some place.binding) : isUseOfMoved r s = true ↔ f.FindsMoved moves place s := by
  have hplain : isUseOfMoved r s = true ↔ ((s.isAccess = true ∧ ¬ (s.kind = .write ∧ s.path <+: place.path)) ∧
      (s.path <+: place.path ∨ place.path <+: s.path)) ∧ (r.setBefore s.id).has .moved = true := by
    simp only [isUseOfMoved, PlaceStates.mayBeMovedBefore, placeStates_place h, Place.overlaps,
      Place.coveredBy, Bool.and_eq_true, Bool.or_eq_true, Bool.not_eq_true', ← Bool.not_eq_true,
      List.isPrefixOf_iff_prefix, decide_eq_true_eq]
    rfl
  rw [hplain, has_setBefore_iff wf hb h hs hn, or_comm]
  constructor
  · rintro ⟨⟨⟨ha, huses⟩, hoverlaps⟩, hin, hrun⟩
    exact ⟨hs, hn, ha, hoverlaps, huses, b, hb, hin, hrun⟩
  · rintro ⟨-, -, ha, hoverlaps, huses, b', hb', hin, hrun⟩
    obtain rfl : b = b' := Option.some.inj (hb.symm.trans hb')
    exact ⟨⟨⟨ha, huses⟩, hoverlaps⟩, hin, hrun⟩

theorem exists_placeStatesIn (hb : f.binding? place.binding = some b) :
    ∃ r, f.placeStatesIn f.graph moves place = .ok r :=
  exists_bind ⟨b, optionOr_eq_ok.2 hb⟩ fun _ _ => exists_pure

theorem exists_moved (wf : f.WellFormed)
    (hmoves : ∀ id ∈ moves, ∃ s ∈ f.allSites, s.isAccess = true ∧ s.id = id) :
    ∃ moved, (sortInts moves).mapM f.getSite = .ok moved ∧
      ∀ s ∈ moved, s ∈ f.allSites ∧ s.isAccess = true := by
  have hfound : ∀ id ∈ sortInts moves, ∃ s, f.getSite id = .ok s ∧ s ∈ f.allSites ∧ s.isAccess = true := by
    intro id hid
    obtain ⟨s, hs, ha, rfl⟩ := hmoves id ((mem_sortBy _ _ _).1 hid)
    exact ⟨s, exists_getSite wf hs, hs, ha⟩
  obtain ⟨moved, hmoved⟩ := exists_mapM fun id hid => (hfound id hid).imp fun _ h => h.1
  refine ⟨moved, hmoved, fun s hs => ?_⟩
  obtain ⟨id, hid, hget⟩ := mem_of_mapM hmoved hs
  obtain ⟨s', hget', h⟩ := hfound id hid
  rw [hget, Except.ok.injEq] at hget'
  exact hget' ▸ h

theorem exists_explicitMoves (wf : f.WellFormed)
    (hmoves : ∀ id ∈ moves, ∃ s ∈ f.allSites, s.isAccess = true ∧ s.id = id) :
    ∃ movers, f.explicitMoves moves = .ok movers := by
  obtain ⟨moved, hmoved, -⟩ := exists_moved wf hmoves
  exact exists_bind ⟨moved, hmoved⟩ fun _ _ => exists_pure

theorem forall_movers_iff (wf : f.WellFormed) {movers : List Site} (h : f.explicitMoves moves = .ok movers)
    {P : Site → Prop} : (∀ v ∈ movers.filter (·.reaches place), P v) ↔
      ∀ v ∈ f.allSites, v.id ∈ moves → v.explicit = true → v.reaches place = true → P v := by
  simp only [List.mem_filter, mem_explicitMoves wf h]
  exact ⟨fun hall v hv hmem he hreaches => hall v ⟨⟨hv, hmem, he⟩, hreaches⟩,
    fun hall v ⟨⟨hv, hmem, he⟩, hreaches⟩ => hall v hv hmem he hreaches⟩

theorem isSome_useAfterMove? {movers : List Site} {r : PlaceStates} :
    (f.useAfterMove? movers r s).isSome = true ↔ s.describe?.isSome = true ∧ ∀ v ∈ movers, v.Legible := by
  have hnotes : (∃ notes, movers.mapM (moveNote? r.place) = some notes) ↔ ∀ v ∈ movers, v.Legible := by
    rw [← Option.isSome_iff_exists, isSome_mapM]
    exact forall₂_congr fun v _ => isSome_moveNote?
  rw [← hnotes]
  simp only [Option.isSome_iff_exists, useAfterMove?_eq_some]
  constructor
  · rintro ⟨_, site, notes, hsite, hnotes, -⟩
    exact ⟨⟨site, hsite⟩, notes, hnotes⟩
  · rintro ⟨⟨site, hsite⟩, notes, hnotes⟩
    exact ⟨_, site, notes, hsite, hnotes, rfl⟩

theorem exists_checkUseAfterMove_iff (wf : f.WellFormed)
    (hmoves : ∀ id ∈ moves, ∃ s ∈ f.allSites, s.isAccess = true ∧ s.id = id) :
    (∃ ds, f.checkUseAfterMove moves = .ok ds) ↔ f.ReportsLegible moves := by
  obtain ⟨movers, hmovers⟩ := exists_explicitMoves wf hmoves
  have hplaces : ∀ {place : Place}, place ∈ movedPlaces movers ↔ ∃ u, f.MovesExplicitly moves place u := by
    intro place
    simp only [mem_movedPlaces, mem_explicitMoves wf hmovers, MovesExplicitly, and_assoc]
  constructor
  · rintro ⟨ds, h⟩ place u s hu huse
    obtain ⟨movers', hmovers', h⟩ := bind_eq_ok.1 h
    obtain rfl : movers = movers' := Except.ok.inj (hmovers.symm.trans hmovers')
    obtain ⟨reports, hreports, -⟩ := bind_eq_ok.1 h
    obtain ⟨report, -, hreport⟩ := exists_mem_of_mapM hreports (hplaces.2 ⟨u, hu⟩)
    obtain ⟨r, hr, hreport⟩ := bind_eq_ok.1 hreport
    obtain ⟨b, hb, -⟩ := huse.run
    have hs : s ∈ (f.sitesOf place.binding).filter (isUseOfMoved r) :=
      List.mem_filter.2 ⟨mem_sitesOf.2 ⟨huse.site, huse.name⟩,
        (isUseOfMoved_iff wf hb hr huse.site huse.name).2 huse⟩
    obtain ⟨d, -, hd⟩ := exists_mem_of_mapM hreport hs
    rw [optionOr_eq_ok] at hd
    obtain ⟨hsite, hnotes⟩ := isSome_useAfterMove?.1 (Option.isSome_iff_exists.2 ⟨d, hd⟩)
    exact ⟨hsite, (forall_movers_iff wf hmovers).1 hnotes⟩
  · intro h
    refine exists_bind ⟨movers, hmovers⟩ fun movers' hmovers' => ?_
    obtain rfl : movers = movers' := Except.ok.inj (hmovers.symm.trans hmovers')
    refine exists_bind (exists_mapM fun place hplace => ?_) fun _ _ => exists_pure
    obtain ⟨u, hu⟩ := hplaces.1 hplace
    obtain ⟨b, hb⟩ := wf.binding hu.1 hu.2.2.2.1
    refine exists_bind (exists_placeStatesIn hb) fun r hr => exists_mapM fun s hs => ?_
    obtain ⟨hs, huse⟩ := List.mem_filter.1 hs
    obtain ⟨hs, hn⟩ := mem_sitesOf.1 hs
    obtain ⟨hsite, hlegible⟩ := h place u s hu ((isUseOfMoved_iff wf hb hr hs hn).1 huse)
    obtain ⟨d, hd⟩ := Option.isSome_iff_exists.1
      (isSome_useAfterMove?.2 ⟨hsite, (forall_movers_iff wf hmovers).2 hlegible⟩)
    exact ⟨d, optionOr_eq_ok.2 hd⟩

theorem of_mem_checkUseAfterMove (wf : f.WellFormed) {ds : List Diagnostic}
    (h : f.checkUseAfterMove moves = .ok ds) {d : Diagnostic} (hd : d ∈ ds) :
    ∃ movers place u r s, f.explicitMoves moves = .ok movers ∧ f.MovesExplicitly moves place u ∧
      f.placeStatesIn f.graph moves place = .ok r ∧ f.FindsMoved moves place s ∧
      f.useAfterMove? (movers.filter (·.reaches place)) r s = some d := by
  obtain ⟨movers, hmovers, h⟩ := bind_eq_ok.1 h
  obtain ⟨reports, hreports, h⟩ := bind_eq_ok.1 h
  rw [pure_eq_ok] at h
  obtain ⟨report, hreport, hd⟩ := List.mem_flatten.1 (h ▸ hd)
  obtain ⟨place, hplace, hreport⟩ := mem_of_mapM hreports hreport
  obtain ⟨r, hr, hreport⟩ := bind_eq_ok.1 hreport
  obtain ⟨s, hs, hd⟩ := mem_of_mapM hreport hd
  obtain ⟨hs, huse⟩ := List.mem_filter.1 hs
  obtain ⟨hs, hn⟩ := mem_sitesOf.1 hs
  obtain ⟨u, hu, hun, hpath⟩ := mem_movedPlaces.1 hplace
  obtain ⟨hu, hmem, hexplicit⟩ := (mem_explicitMoves wf hmovers).1 hu
  obtain ⟨b, hb⟩ := wf.binding hu hun
  exact ⟨movers, place, u, r, s, hmovers, ⟨hu, hmem, hexplicit, hun, hpath⟩, hr,
    (isUseOfMoved_iff wf hb hr hs hn).1 huse, optionOr_eq_ok.1 hd⟩

/-- The check finds no error exactly if no run uses a moved value. -/
theorem hasErrors_checkUseAfterMove (wf : f.WellFormed) {ds : List Diagnostic}
    (h : f.checkUseAfterMove moves = .ok ds) : hasErrors ds = true ↔ f.UsesMoved moves := by
  constructor
  · intro herr
    obtain ⟨d, hd, -⟩ := List.any_eq_true.1 herr
    obtain ⟨_, place, u, _, s, -, hu, -, huse, -⟩ := of_mem_checkUseAfterMove wf h hd
    exact ⟨place, u, s, hu, huse⟩
  · rintro ⟨place, u, s, ⟨hu, hmem, hexplicit, hun, hpath⟩, huse⟩
    by_contra hnone
    rw [Bool.not_eq_true] at hnone
    obtain ⟨r, hr, hno⟩ :=
      isUseOfMoved_of_check wf h hnone hu hmem hexplicit hun (mem_sitesOf.2 ⟨huse.site, huse.name⟩)
    obtain ⟨b, hb, -⟩ := huse.run
    rw [hpath] at hr
    rw [(isUseOfMoved_iff wf hb hr huse.site huse.name).2 huse] at hno
    cases hno

end MovePlan.Function
