import MovePlan.Proofs.Plan.Renumbered

set_option autoImplicit false

namespace MovePlan

namespace OrderedMap
variable {κ α : Type} [DecidableEq κ]

theorem get?_ofList_congr {xs ys : List (κ × α)} (h : ∀ e, e ∈ ys ↔ e ∈ xs)
    (huniq : ∀ k v w, (k, v) ∈ xs → (k, w) ∈ xs → v = w) (k : κ) :
    (ofList ys).get? k = (ofList xs).get? k := by
  refine Option.ext fun v => ?_
  rw [get?_ofList, get?_ofList]
  constructor
  · intro hv
    have hmem := (h _).1 (mem_of_lastWrite hv)
    exact lastWrite_eq_some hmem fun w hw => huniq k w v hw hmem
  · intro hv
    have hmem := mem_of_lastWrite hv
    exact lastWrite_eq_some ((h _).2 hmem) fun w hw => huniq k w v ((h _).1 hw) hmem

end OrderedMap

namespace Function
variable {σ : Equiv.Perm BlockId} {ρ : BlockId → BlockId} {f : Function} {m : TypeModel} {settings : Settings}
  {moves moves' : List SiteId} {place : Place} {s : Site} {r r' : PlaceStates}

theorem assignSource_renumber {x : Option SiteId} (h : f.assignSource s = .ok x) :
    (f.renumber σ).assignSource (s.renumber σ) = .ok x := by
  rw [assignSource] at h ⊢
  rw [Site.renumber_index]
  split at h
  next hfirst => rw [if_pos hfirst, ← h]
  next hlater =>
  rw [if_neg hlater]
  obtain ⟨blk, hblk, h⟩ := bind_eq_ok.1 h
  obtain ⟨prev, hprev, h⟩ := bind_eq_ok.1 h
  have hentry : entryAt? (blk.renumber σ).sites (s.index - 1) =
      (entryAt? blk.sites (s.index - 1)).map (Site.renumber σ) := by
    rw [entryAt?, entryAt?, Block.renumber, List.length_map]
    split
    · exact List.getElem?_map ..
    split
    · exact List.getElem?_map ..
    · rfl
  refine bind_eq_ok.2 ⟨_, getBlock_renumber hblk, bind_eq_ok.2 ⟨prev.renumber σ, ?_, h⟩⟩
  rw [optionOr_eq_ok] at hprev ⊢
  rw [hentry, hprev]
  rfl

def coverStep (place : Place) (best : Option (Place × DropFlag)) (e : Place × DestructionPlan) :
    Option (Place × DropFlag) :=
  match e.2.disposal.flag? with
  | none => best
  | some flag =>
    if e.1.binding ≠ place.binding || !place.coveredBy e.1.path then best
    else match best with
      | none => some (e.1, flag)
      | some (p, _) => if e.1.path.length > p.path.length then some (e.1, flag) else best

def SameFlag (x y : Place × DropFlag) : Prop := y.1 = x.1 ∧ y.2.name = x.2.name

theorem coveringFlag_renumber {x y : OrderedMap Place DestructionPlan}
    (h : OrderedMap.InStep (DestructionPlan.Renumbered ρ) x.entries y.entries) (place : Place) :
    coveringFlag place y = coveringFlag place x := by
  have hstep : ∀ best best' : Option (Place × DropFlag), Option.Rel SameFlag best best' →
      ∀ e e' : Place × DestructionPlan, e'.1 = e.1 ∧ e.2.Renumbered ρ e'.2 →
        Option.Rel SameFlag (coverStep place best e) (coverStep place best' e') := by
    rintro best best' hbest ⟨p, d⟩ ⟨_, d'⟩ ⟨rfl, hd⟩
    have hdisposal := hd.disposal
    simp only [coverStep]
    revert hdisposal
    generalize d.disposal = disposal
    generalize d'.disposal = disposal'
    rintro (_ | _ | hflag)
    · exact hbest
    · exact hbest
    · simp only [Disposal.flag?]
      split
      · exact hbest
      · cases hbest with
        | none => exact .some ⟨rfl, hflag.name⟩
        | @some x y hxy =>
          obtain ⟨p, x⟩ := x
          obtain ⟨_, y⟩ := y
          obtain ⟨rfl, hname⟩ := hxy
          simp only
          split
          · exact .some ⟨rfl, hflag.name⟩
          · exact .some ⟨rfl, hname⟩
  have hfold := List.rel_foldl (P := Option.Rel SameFlag) hstep (.none : Option.Rel SameFlag none none) h
  change (y.entries.foldl (coverStep place) none).map (·.2.name) =
    (x.entries.foldl (coverStep place) none).map (·.2.name)
  revert hfold
  generalize x.entries.foldl (coverStep place) none = found
  generalize y.entries.foldl (coverStep place) none = found'
  rintro (hsame | _)
  · exact congrArg some hsame.2
  · rfl

theorem assignPlan?_renumber (wf : f.WellFormed) (wf' : (f.renumber σ).WellFormed)
    (hmoves : ∀ id, id ∈ moves' ↔ id ∈ moves) {x y : OrderedMap Place DestructionPlan}
    (hstep : OrderedMap.InStep (DestructionPlan.Renumbered ρ) x.entries y.entries) (hs : s ∈ f.allSites)
    {name : String} (hn : s.binding = some name) {v : Option (SiteId × AssignPlan)}
    (h : f.assignPlan? m settings (f.placeStatesIn f.graph moves) x s name = .ok v) :
    (f.renumber σ).assignPlan? m settings ((f.renumber σ).placeStatesIn (f.renumber σ).graph moves') y
      (s.renumber σ) name = .ok v := by
  obtain ⟨b, hb, h⟩ := bind_eq_ok.1 h
  rw [getBinding, optionOr_eq_ok] at hb
  refine bind_eq_ok.2 ⟨_, optionOr_eq_ok.2 (binding?_renumber_of hb), ?_⟩
  rw [leafType?_renumber, Site.renumber_path]
  cases hleaf : m.leafType? b s.path with
  | none =>
    simp only [hleaf] at h
    exact h
  | some leaf =>
    simp only [hleaf] at h
    obtain ⟨relevant, hrelevant, h⟩ := bind_eq_ok.1 h
    refine bind_eq_ok.2 ⟨relevant, hrelevant, ?_⟩
    cases relevant with
    | false => exact h
    | true =>
      obtain ⟨r, hr, h⟩ := bind_eq_ok.1 h
      obtain ⟨needs, hneeds, h⟩ := bind_eq_ok.1 h
      obtain ⟨source, hsource, h⟩ := bind_eq_ok.1 h
      obtain ⟨r', hr'⟩ := exists_placeStatesIn_renumber moves' { binding := name, path := s.path } hb
      have hsame := sameStates_renumber wf wf' hmoves hb hr hr'
      have hstate := hsame.stateBefore hs (hn.trans (congrArg (some ·.binding) (placeStates_place hr).symm))
      refine bind_eq_ok.2 ⟨r', hr', bind_eq_ok.2 ⟨needs, hneeds, bind_eq_ok.2 ⟨source,
        assignSource_renumber hsource, ?_⟩⟩⟩
      rw [← h, Site.renumber_id, hstate, coveringFlag_renumber hstep]

theorem exists_mapM_perm {ε α β : Type} {g : α → Except ε β} {xs xs' : List α} (hxs : xs.Perm xs') {ys : List β}
    (h : xs.mapM g = .ok ys) : ∃ ys', xs'.mapM g = .ok ys' ∧ ys.Perm ys' := by
  obtain ⟨ys', hys', hperm⟩ := List.perm_comp_forall₂ hxs.symm (mapM_eq_ok.1 h)
  exact ⟨ys', mapM_eq_ok.2 hys', hperm.symm⟩

theorem sites_renumber {α : Type} {g k : Site → Except Fault α} (hsame : ∀ s, k (s.renumber σ) = g s)
    {xs : List α} (h : f.allSites.mapM g = .ok xs) :
    ∃ xs', (f.renumber σ).allSites.mapM k = .ok xs' ∧ xs'.Perm xs := by
  have hmap : (f.allSites.map (Site.renumber σ)).mapM k = .ok xs := by
    rw [List.mapM_map]
    exact (congrArg (f.allSites.mapM ·) (funext hsame)).trans h
  obtain ⟨xs', hxs', hperm⟩ := exists_mapM_perm allSites_renumber.symm hmap
  exact ⟨xs', hxs', hperm.symm⟩

/-- The plans of writes that depend on the site alone are the same. -/
theorem writes_renumber (wf : f.WellFormed) {g k : Site → Except Fault (Option (SiteId × AssignPlan))}
    (hsame : ∀ s ∈ f.allSites, ∀ v, g s = .ok v → k (s.renumber σ) = .ok v)
    (hkey : ∀ s e, g s = .ok (some e) → e.1 = s.id) {plans : List (Option (SiteId × AssignPlan))}
    (h : (f.allSites.filter (·.kind = .write)).mapM g = .ok plans) :
    ∃ plans', ((f.renumber σ).allSites.filter (·.kind = .write)).mapM k = .ok plans' ∧
      ∀ id, (OrderedMap.ofList (plans'.filterMap fun p => p)).get? id =
        (OrderedMap.ofList (plans.filterMap fun p => p)).get? id := by
  have hmap : ((f.allSites.filter (·.kind = .write)).map (Site.renumber σ)).mapM k = .ok plans := by
    rw [mapM_eq_ok, List.forall₂_map_left_iff]
    exact forall₂_imp_of_mem (mapM_eq_ok.1 h) fun s hs v hv => hsame s (List.mem_of_mem_filter hs) v hv
  have hperm : ((f.allSites.filter (·.kind = .write)).map (Site.renumber σ)).Perm
      ((f.renumber σ).allSites.filter (·.kind = .write)) := by
    refine List.Perm.symm ((allSites_renumber.filter _).trans (.of_eq ?_))
    rw [List.filter_map]
    rfl
  obtain ⟨plans', hplans', hall⟩ := exists_mapM_perm hperm hmap
  refine ⟨plans', hplans', OrderedMap.get?_ofList_congr (fun e => ((hall.filterMap _).mem_iff).symm) ?_⟩
  intro id v w hv hw
  have hsite : ∀ {v : AssignPlan}, (id, v) ∈ plans.filterMap (fun p => p) →
      ∃ s ∈ f.allSites, s.id = id ∧ g s = .ok (some (id, v)) := by
    intro v hv
    obtain ⟨_, hp, rfl⟩ := List.mem_filterMap.1 hv
    obtain ⟨s, hs, hg⟩ := mem_of_mapM h hp
    exact ⟨s, List.mem_of_mem_filter hs, (hkey s _ hg).symm, hg⟩
  obtain ⟨s, hs, hid, hg⟩ := hsite hv
  obtain ⟨s', hs', hid', hg'⟩ := hsite hw
  obtain rfl := wf.id_inj hs hs' (hid.trans hid'.symm)
  exact congrArg Prod.snd (Option.some.inj (Except.ok.inj (hg.symm.trans hg')))

theorem site_of_assignPlan? {states : StatesOf} {destruction : OrderedMap Place DestructionPlan} {name : String}
    {e : SiteId × AssignPlan} (h : f.assignPlan? m settings states destruction s name = .ok (some e)) :
    e.1 = s.id := by
  obtain ⟨b, _, h⟩ := bind_eq_ok.1 h
  cases hleaf : m.leafType? b s.path with
  | none =>
    simp only [hleaf] at h
    cases h
  | some leaf =>
    simp only [hleaf] at h
    obtain ⟨relevant, _, h⟩ := bind_eq_ok.1 h
    cases relevant with
    | false => cases h
    | true =>
      obtain ⟨_, _, h⟩ := bind_eq_ok.1 h
      obtain ⟨_, _, h⟩ := bind_eq_ok.1 h
      obtain ⟨_, _, h⟩ := bind_eq_ok.1 h
      cases h
      rfl

theorem assignPlans_renumber (wf : f.WellFormed) (wf' : (f.renumber σ).WellFormed)
    (hmoves : ∀ id, id ∈ moves' ↔ id ∈ moves) {x y : OrderedMap Place DestructionPlan}
    (hstep : OrderedMap.InStep (DestructionPlan.Renumbered ρ) x.entries y.entries)
    {plans : OrderedMap SiteId AssignPlan} (h : f.assignPlans m settings moves x = .ok plans) :
    ∃ plans', (f.renumber σ).assignPlans m settings moves' y = .ok plans' ∧
      ∀ id, plans'.get? id = plans.get? id := by
  obtain ⟨entries, hentries, h⟩ := bind_eq_ok.1 h
  obtain rfl := pure_eq_ok.1 h
  refine (writes_renumber (σ := σ) wf ?_ ?_ hentries).elim fun entries' h =>
    ⟨_, bind_eq_ok.2 ⟨entries', h.1, rfl⟩, h.2⟩
  · intro s hs v hv
    rw [Site.renumber_binding]
    cases hn : s.binding with
    | none => rwa [hn] at hv
    | some name =>
      rw [hn] at hv
      exact assignPlan?_renumber wf wf' hmoves hstep hs hn hv
  · intro s e he
    split at he
    · cases he
    · exact site_of_assignPlan? he

end Function
end MovePlan
