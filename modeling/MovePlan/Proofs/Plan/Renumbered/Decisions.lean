import Mathlib.Data.List.Sort
import MovePlan.Proofs.Analysis.Renumbered
import MovePlan.Proofs.Plan.Total
import MovePlan.Proofs.Plan.UseAfterMove

set_option autoImplicit false

namespace MovePlan

namespace Function
variable {σ : Equiv.Perm BlockId} {f : Function} {m : TypeModel} {settings : Settings}
  {facts facts' : LastUseFacts} {s : Site}

theorem leafType?_renumber (m : TypeModel) (b : Binding) (path : Path) :
    m.leafType? (b.renumber σ) path = m.leafType? b path := rfl

theorem ownership_renumber (b : Binding) :
    (f.renumber σ).ownership (b.renumber σ) = f.ownership b := rfl

theorem bind_binding?_renumber (s : Site) :
    (s.renumber σ).binding.bind (f.renumber σ).binding? =
      (s.binding.bind f.binding?).map (Binding.renumber σ) := by
  rw [Site.renumber_binding, Option.map_bind]
  exact congrArg _ (funext binding?_renumber)

theorem returnsForwarded_renumber (s : Site) (t : Target) :
    (f.renumber σ).returnsForwarded (s.renumber σ) t = f.returnsForwarded s t := by
  rw [returnsForwarded, returnsForwarded, bind_binding?_renumber]
  cases s.binding.bind f.binding? <;> rfl

theorem siteType_renumber {type : TypeId} (h : f.siteType m s = .ok type) :
    (f.renumber σ).siteType m (s.renumber σ) = .ok type := by
  rw [siteType] at h ⊢
  rw [Site.renumber_binding]
  cases hn : s.binding with
  | none =>
    rw [hn] at h
    exact optionOr_eq_ok.2 (optionOr_eq_ok.1 h)
  | some name =>
    rw [hn] at h
    obtain ⟨b, hb, hleaf⟩ := Option.bind_eq_some_iff.1 (optionOr_eq_ok.1 h)
    exact optionOr_eq_ok.2 (Option.bind_eq_some_iff.2 ⟨_, binding?_renumber_of hb, hleaf⟩)

theorem verdict_renumber (hfacts : SameFacts f facts facts') (hs : s ∈ f.allSites)
    (ha : s.isAccess = true) :
    (f.renumber σ).verdict settings facts' (s.renumber σ) = f.verdict settings facts s := by
  have howner : ((s.renumber σ).binding.bind (f.renumber σ).binding?).map (f.renumber σ).ownership =
      (s.binding.bind f.binding?).map f.ownership := by
    rw [bind_binding?_renumber, Option.map_map]
    rfl
  rw [verdict, verdict, howner]
  cases hn : s.binding with
  | none => rfl
  | some name =>
    have howned : ownedVerdict settings facts' (s.renumber σ) = ownedVerdict settings facts s := by
      simp only [ownedVerdict, Site.renumber_id, hfacts.candidate s hs ha name hn,
        hfacts.lastUse s hs ha name hn, hfacts.suppressed s hs ha name hn,
        hfacts.fieldBlocked s hs ha name hn]
      rfl
    rw [howned]

theorem decideSite_renumber (hfacts : SameFacts f facts facts') (hs : s ∈ f.allSites) {d : UseDecision}
    (h : f.decideSite m settings facts s = .ok d) :
    (f.renumber σ).decideSite m settings facts' (s.renumber σ) = .ok d := by
  rw [decideSite] at h ⊢
  rw [Site.renumber_kind]
  split at h
  next hk => rw [if_pos hk, ← h]
  next hk =>
  rw [if_neg hk]
  have ha : s.isAccess = true := by rw [Site.isAccess, not_not.1 hk]; rfl
  obtain ⟨t, ht, h⟩ := bind_eq_ok.1 h
  refine bind_eq_ok.2 ⟨t, optionOr_eq_ok.2 (optionOr_eq_ok.1 ht), ?_⟩
  rw [returnsForwarded_renumber, verdict_renumber hfacts hs ha]
  split at h
  next hreturn => rw [if_pos hreturn, ← h]
  next hreturn =>
  rw [if_neg hreturn]
  split at h
  next hmode => rw [if_pos hmode, ← h]
  next hmode =>
  rw [if_neg hmode]
  split at h
  next hforward => rw [if_pos hforward, ← h]
  next hforward =>
  rw [if_neg hforward]
  obtain ⟨type, htype, h⟩ := bind_eq_ok.1 h
  exact bind_eq_ok.2 ⟨type, siteType_renumber htype, h⟩

/-- Every site has the same decision. -/
theorem get?_decisions_renumber (wf : f.WellFormed) (wf' : (f.renumber σ).WellFormed)
    (hfacts : SameFacts f facts facts') {ds ds' : OrderedMap SiteId UseDecision}
    (h : f.decisions m settings facts = .ok ds)
    (h' : (f.renumber σ).decisions m settings facts' = .ok ds') (id : SiteId) : ds'.get? id = ds.get? id := by
  obtain ⟨entries, hentries, -⟩ := bind_eq_ok.1 h
  refine Option.ext fun d => ?_
  rw [get?_decisions wf h, get?_decisions wf' h']
  constructor
  · rintro ⟨t, ht, hk, hid, hd⟩
    obtain ⟨s, hs, rfl⟩ := exists_of_mem_allSites_renumber ht
    obtain ⟨p, -, hp⟩ := exists_mem_of_mapM hentries (mem_decidedSites.2 ⟨hs, hk⟩)
    obtain ⟨d', hd', -⟩ := bind_eq_ok.1 hp
    obtain rfl : d' = d := Except.ok.inj ((decideSite_renumber hfacts hs hd').symm.trans hd)
    exact ⟨s, hs, hk, hid, hd'⟩
  · rintro ⟨s, hs, hk, hid, hd⟩
    exact ⟨s.renumber σ, mem_allSites_renumber.2 hs, hk, hid, decideSite_renumber hfacts hs hd⟩

theorem nodup_transferring (ds : OrderedMap SiteId UseDecision) : (transferring ds).Nodup :=
  ((List.filter_sublist).map _).nodup ds.nodup

theorem sortInts_eq_of_perm {xs ys : List ℤ} (h : xs.Perm ys) : sortInts xs = sortInts ys := by
  have hsorted : ∀ zs : List ℤ, (sortInts zs).Pairwise (· ≤ ·) := fun zs => by
    rw [sortInts, sortBy_eq_insertionSort]
    exact List.pairwise_insertionSort _ _
  exact ((sortBy_perm _ xs).trans (h.trans (sortBy_perm _ ys).symm)).eq_of_pairwise
    (fun a b _ _ => le_antisymm) (hsorted xs) (hsorted ys)

theorem moved_renumber (wf' : (f.renumber σ).WellFormed) {moves moves' : List SiteId}
    (hmoves : moves'.Perm moves) {moved : List Site} (h : (sortInts moves).mapM f.getSite = .ok moved) :
    (sortInts moves').mapM (f.renumber σ).getSite = .ok (moved.map (Site.renumber σ)) := by
  rw [sortInts_eq_of_perm hmoves, mapM_eq_ok, List.forall₂_map_right_iff]
  refine forall₂_imp_of_mem (mapM_eq_ok.1 h) fun id _ s hs => ?_
  rw [getSite, optionOr_eq_ok] at hs ⊢
  have hall : s ∈ f.allSites := List.mem_of_find?_eq_some hs
  obtain rfl : s.id = id := by simpa using List.find?_some hs
  exact wf'.site?_eq (mem_allSites_renumber.2 hall)

variable {place : Place} {b : Binding} {moves moves' : List SiteId} {r r' : PlaceStates} {name : String}

structure SameStates (σ : BlockId → BlockId) (f : Function) (r r' : PlaceStates) : Prop where
  place : r'.place = r.place
  before : ∀ s ∈ f.allSites, s.binding = some r.place.binding → r'.setBefore s.id = r.setBefore s.id
  exits : ∀ e, e ∈ r'.exitStates ↔ e ∈ r.exitStates.map fun e => (e.1.renumber σ, e.2)
  reached : ∀ e ∈ r.exitStates, f.Reached e.1.block

theorem exists_placeStatesIn_renumber (moves' : List SiteId) (place : Place)
    (hb : f.binding? place.binding = some b) :
    ∃ r', (f.renumber σ).placeStatesIn (f.renumber σ).graph moves' place = .ok r' :=
  exists_placeStatesIn (binding?_renumber_of hb)

theorem sameStates_renumber (wf : f.WellFormed) (wf' : (f.renumber σ).WellFormed)
    (hmoves : ∀ id, id ∈ moves' ↔ id ∈ moves) (hb : f.binding? place.binding = some b)
    (h : f.placeStatesIn f.graph moves place = .ok r)
    (h' : (f.renumber σ).placeStatesIn (f.renumber σ).graph moves' place = .ok r') : SameStates σ f r r' where
  place := (placeStates_place h').trans (placeStates_place h).symm
  before s hs hn := by
    rw [placeStates_place h] at hn
    exact setBefore_renumber wf wf' hmoves hb h h' hs hn
  exits e := by
    have hback : (e.1.renumber σ.symm).renumber σ = e.1 := by
      simpa using ScopeExit.renumber_symm (σ := σ.symm) e.1
    have hiff : ((e.1.renumber σ.symm).renumber σ, e.2) ∈ r'.exitStates ↔
        (e.1.renumber σ.symm, e.2) ∈ r.exitStates := mem_exitStates_renumber wf wf' hmoves hb h h'
    rw [hback] at hiff
    rw [hiff, List.mem_map]
    refine ⟨fun he => ⟨_, he, by rw [hback]⟩, ?_⟩
    rintro ⟨x, hx, rfl⟩
    rwa [ScopeExit.renumber_symm]
  reached e he := (mem_scopeExits.1 ((mem_exitStates hb h).1 he).1).1.1

theorem SameStates.stateBefore (h : SameStates σ f r r') (hs : s ∈ f.allSites)
    (hn : s.binding = some r.place.binding) : r'.stateBefore s.id = r.stateBefore s.id :=
  congrArg StateSet.summary (h.before s hs hn)

theorem reinits_renumber (h : SameStates σ f r r') :
    ((f.renumber σ).reinits r').Perm ((f.reinits r).map (Site.renumber σ)) := by
  rw [reinits, reinits, h.place]
  refine ((sitesOf_renumber _).filter _).trans (.of_eq ?_)
  rw [List.filter_map]
  refine congrArg _ (List.filter_congr fun s hs => ?_)
  obtain ⟨hall, hn⟩ := mem_sitesOf.1 hs
  simp only [Function.comp_apply, Site.renumber_kind, Site.renumber_path, Site.renumber_id,
    h.stateBefore hall hn]
  rfl

/-- The one declaration is found in whatever order the blocks come. -/
theorem declSite?_renumber (hone : f.DeclaredOnce) :
    (f.renumber σ).declSite? (b.renumber σ) = f.declSite? b := by
  have hdecls : ((f.renumber σ).sitesOf b.name).filter (·.kind = .decl) =
      ((f.sitesOf b.name).filter (·.kind = .decl)).map (Site.renumber σ) := by
    have hperm := (sitesOf_renumber (σ := σ) (f := f) b.name).filter fun s => decide (s.kind = .decl)
    rw [List.filter_map] at hperm
    have hany : ∀ xs : List Site, xs.Pairwise fun _ _ => True := fun xs =>
      List.pairwise_of_forall fun _ _ => trivial
    refine hperm.eq_of_pairwise (fun x y hx hy _ _ => ?_) (hany _) (hany _)
    obtain ⟨s, hs, rfl⟩ := List.mem_map.1 (hperm.mem_iff.1 hx)
    obtain ⟨t, ht, rfl⟩ := List.mem_map.1 hy
    rw [List.mem_filter, mem_sitesOf] at hs ht
    rw [hone.decl_unique hs.1.1 ht.1.1 hs.1.2 (of_decide_eq_true hs.2) ht.1.2 (of_decide_eq_true ht.2)]
  have hfind : ((f.renumber σ).sitesOf b.name).find? (·.kind = .decl) =
      ((f.sitesOf b.name).find? (·.kind = .decl)).map (Site.renumber σ) := by
    rw [← List.head?_filter, ← List.head?_filter, hdecls, List.head?_map]
  simp only [declSite?, renumber_captures, Binding.renumber_name, hfind, Option.map_map]
  rfl

end Function
end MovePlan
