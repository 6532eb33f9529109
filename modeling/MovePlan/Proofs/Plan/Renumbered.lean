import MovePlan.Proofs.Plan.Renumbered.Moves

set_option autoImplicit false

namespace MovePlan

namespace OrderedMap
variable {κ α β : Type} [DecidableEq κ] {R : α → β → Prop}

/-- The same keys in the same order, with related values. -/
def InStep (R : α → β → Prop) (xs : List (κ × α)) (ys : List (κ × β)) : Prop :=
  List.Forall₂ (fun x y => y.1 = x.1 ∧ R x.2 y.2) xs ys

theorem InStep.putIn {xs : List (κ × α)} {ys : List (κ × β)} (h : InStep R xs ys) {k : κ} {v : α} {w : β}
    (hv : R v w) : InStep R (putIn k v xs) (OrderedMap.putIn k w ys) := by
  induction h with
  | nil => exact .cons ⟨rfl, hv⟩ .nil
  | @cons x y xs ys hxy h ih =>
    by_cases hk : x.1 = k
    · rw [OrderedMap.putIn, OrderedMap.putIn, if_pos hk, if_pos (hxy.1.trans hk)]
      exact .cons ⟨rfl, hv⟩ h
    · rw [OrderedMap.putIn, OrderedMap.putIn, if_neg hk, if_neg (hxy.1 ▸ hk)]
      exact .cons hxy ih

theorem InStep.ofList {xs : List (κ × α)} {ys : List (κ × β)} (h : InStep R xs ys) :
    InStep R (ofList xs).entries (OrderedMap.ofList ys).entries := by
  have main : ∀ (a : OrderedMap κ α) (b : OrderedMap κ β), InStep R a.entries b.entries →
      InStep R (xs.foldl (fun m e => m.put e.1 e.2) a).entries
        (ys.foldl (fun m e => m.put e.1 e.2) b).entries := by
    induction h with
    | nil => exact fun _ _ h => h
    | @cons x y xs ys hxy _ ih =>
      intro a b hab
      refine ih _ _ ?_
      show InStep R (OrderedMap.putIn x.1 x.2 a.entries) (OrderedMap.putIn y.1 y.2 b.entries)
      rw [hxy.1]
      exact hab.putIn hxy.2
  exact main empty empty .nil

theorem InStep.get? {a : OrderedMap κ α} {b : OrderedMap κ β} (h : InStep R a.entries b.entries) (k : κ) :
    Option.Rel R (a.get? k) (b.get? k) := by
  rw [OrderedMap.get?, OrderedMap.get?]
  generalize a.entries = xs at h
  generalize b.entries = ys at h
  induction h with
  | nil => exact .none
  | @cons x y xs ys hxy _ ih =>
    by_cases hk : x.1 = k
    · rw [findIn, findIn, if_pos hk, if_pos (hxy.1.trans hk)]
      exact .some hxy.2
    · rw [findIn, findIn, if_neg hk, if_neg (hxy.1 ▸ hk)]
      exact ih

end OrderedMap

def ClearPoint.renumber (σ : BlockId → BlockId) (p : ClearPoint) : ClearPoint := { p with block := σ p.block }

def SetPoint.renumber (σ : BlockId → BlockId) (p : SetPoint) : SetPoint := { p with block := σ p.block }

/-- The same flag under other block numbers, where the writes that set it may come in another order. -/
structure DropFlag.Renumbered (σ : BlockId → BlockId) (x y : DropFlag) : Prop where
  name : y.name = x.name
  place : y.place = x.place
  declSite : y.declSite = x.declSite
  clears : y.clears = x.clears.map (ClearPoint.renumber σ)
  sets : y.sets.Perm (x.sets.map (SetPoint.renumber σ))

inductive Disposal.Renumbered (σ : BlockId → BlockId) : Disposal → Disposal → Prop
  | always : Renumbered σ .always .always
  | never : Renumbered σ .never .never
  | guarded {x y : DropFlag} (h : x.Renumbered σ y) : Renumbered σ (.guarded x) (.guarded y)

structure DestructionPlan.Renumbered (σ : BlockId → BlockId) (x y : DestructionPlan) : Prop where
  type : y.type = x.type
  disposal : x.disposal.Renumbered σ y.disposal
  isPartial : y.isPartial = x.isPartial
  reason : y.reason = x.reason

namespace Function
variable {σ : Equiv.Perm BlockId} {f : Function} {m : TypeModel} {place : Place} {b : Binding}
  {moves moves' : List SiteId} {r r' : PlaceStates} {name : String} {ρ : BlockId → BlockId}

def SameNumbers (f : Function) (σ ρ : BlockId → BlockId) : Prop :=
  ∀ id, f.hasBlock id = true → ρ id = σ id

theorem SameNumbers.block (hρ : f.SameNumbers σ ρ) (wf : f.WellFormed) {s : Site} (hs : s ∈ f.allSites) :
    ρ s.block = σ s.block :=
  hρ _ (hasBlock_of_mem_sitesAt (wf.mem_sitesAt hs))

theorem dropFlag_renumber (wf : f.WellFormed) (hρ : f.SameNumbers σ ρ) (hone : f.DeclaredOnce) (place : Place)
    {moved reinits reinits' : List Site} (hmoved : ∀ s ∈ moved, s ∈ f.allSites)
    (hall : ∀ s ∈ reinits, s ∈ f.allSites) (hreinits : reinits'.Perm (reinits.map (Site.renumber σ))) :
    (f.dropFlag b place moved reinits).Renumbered ρ
      ((f.renumber σ).dropFlag (b.renumber σ) place (moved.map (Site.renumber σ)) reinits') where
  name := rfl
  place := rfl
  declSite := declSite?_renumber hone
  clears := by
    simp only [dropFlag, List.map_map]
    refine List.map_congr_left fun s hs => ?_
    simp only [Function.comp_apply, ClearPoint.renumber, hρ.block wf (hmoved s hs), Site.renumber_block]
    rfl
  sets := by
    refine (hreinits.map _).trans (.of_eq ?_)
    simp only [dropFlag, List.map_map]
    refine List.map_congr_left fun s hs => ?_
    simp only [Function.comp_apply, SetPoint.renumber, hρ.block wf (hall s hs), Site.renumber_block]
    rfl

theorem disposalFromStates_renumber (wf : f.WellFormed) (hρ : f.SameNumbers σ ρ) (hone : f.DeclaredOnce)
    (hsame : SameStates σ f r r') {moved : List Site} (hmoved : ∀ s ∈ moved, s ∈ f.allSites) :
    (f.disposalFromStates b moved r).1.Renumbered ρ
        ((f.renumber σ).disposalFromStates (b.renumber σ) (moved.map (Site.renumber σ)) r').1 ∧
      ((f.renumber σ).disposalFromStates (b.renumber σ) (moved.map (Site.renumber σ)) r').2 =
        (f.disposalFromStates b moved r).2 := by
  have hall : ∀ s ∈ f.reinits r, s ∈ f.allSites ∧ s.binding = some r.place.binding := fun s hs =>
    mem_sitesOf.1 (List.mem_of_mem_filter hs)
  have howed : ((r'.exitStates.map Prod.snd).filter fun st => st = .valid || st = .maybe).isEmpty =
      ((r.exitStates.map Prod.snd).filter fun st => st = .valid || st = .maybe).isEmpty :=
    isEmpty_congr fun st => by rw [List.mem_filter, List.mem_filter, hsame.mem_states]
  have hvalid : (r'.exitStates.map Prod.snd).all (· = .valid) =
      (r.exitStates.map Prod.snd).all (· = .valid) := by
    rw [Bool.eq_iff_iff, List.all_eq_true, List.all_eq_true]
    simp only [hsame.mem_states]
  have hmaybe : (((f.renumber σ).reinits r').any fun s => r'.stateBefore s.id = .maybe) =
      (f.reinits r).any fun s => r.stateBefore s.id = .maybe := by
    rw [(reinits_renumber hsame).any_eq, List.any_map, Bool.eq_iff_iff, List.any_eq_true, List.any_eq_true]
    refine exists_congr fun s => and_congr_right fun hs => ?_
    rw [Function.comp_apply, Site.renumber_id, hsame.stateBefore (hall s hs).1 (hall s hs).2]
  simp only [disposalFromStates, howed, hvalid, hmaybe, List.isEmpty_map]
  split
  · exact ⟨.never, rfl⟩
  split
  · exact ⟨.always, rfl⟩
  · refine ⟨.guarded ?_, rfl⟩
    rw [hsame.place]
    exact dropFlag_renumber wf hρ hone _ hmoved (fun s hs => (hall s hs).1) (reinits_renumber hsame)

theorem placePlan_of_shortcut {states : StatesOf} {d : Dominators} {type : TypeId} {moved : List Site} {v : Bool}
    (hr : states place = .ok r)
    (hv : f.shortcut d b r (moved.filter (·.reaches place)) = .ok v) :
    f.placePlan states d b place type moved = .ok (if v
      then { type := type, disposal := .never, reason := .dominatingMove }
      else { type := type
             disposal := (f.disposalFromStates b (moved.filter (·.reaches place)) r).1
             reason := (f.disposalFromStates b (moved.filter (·.reaches place)) r).2 }) := by
  refine bind_eq_ok.2 ⟨r, hr, ?_⟩
  rw [shortcut] at hv
  simp only
  split at hv
  next hskip =>
    cases hv
    rw [if_pos hskip]
    rfl
  next hskip =>
    rw [if_neg hskip]
    refine bind_eq_ok.2 ⟨v, hv, ?_⟩
    cases v <;> rfl

theorem placePlan_renumber (wf : f.WellFormed) (wf' : (f.renumber σ).WellFormed) (hρ : f.SameNumbers σ ρ)
    (hone : f.DeclaredOnce)
    (hmoves : ∀ id, id ∈ moves' ↔ id ∈ moves) (hb : f.binding? place.binding = some b) {type : TypeId}
    {moved : List Site} (hmoved : ∀ s ∈ moved, s ∈ f.allSites) {x : DestructionPlan}
    (h : f.placePlan (f.placeStatesIn f.graph moves) f.dominators b place type moved = .ok x) :
    ∃ y, (f.renumber σ).placePlan ((f.renumber σ).placeStatesIn (f.renumber σ).graph moves')
      (f.renumber σ).dominators (b.renumber σ) place type (moved.map (Site.renumber σ)) = .ok y ∧
        x.Renumbered ρ y := by
  obtain ⟨r, hr, hcases⟩ := of_placePlan h
  obtain ⟨r', hr'⟩ := exists_placeStatesIn_renumber moves' place hb
  have hsame := sameStates_renumber wf wf' hmoves hb hr hr'
  have hreach : (moved.map (Site.renumber σ)).filter (·.reaches place) =
      (moved.filter (·.reaches place)).map (Site.renumber σ) := List.filter_map
  rcases hcases with ⟨hv, rfl⟩ | ⟨hv, rfl⟩
  · have hv' := shortcut_renumber hsame hv
    rw [← hreach] at hv'
    exact ⟨_, placePlan_of_shortcut hr' hv', rfl, .never, rfl, rfl⟩
  · have hv' := shortcut_renumber hsame hv
    have hdisposal := disposalFromStates_renumber (b := b) wf hρ hone hsame fun s hs =>
      hmoved s (List.mem_of_mem_filter (p := (·.reaches place)) hs)
    rw [← hreach] at hv' hdisposal
    exact ⟨_, placePlan_of_shortcut hr' hv', rfl, hdisposal.1, rfl, hdisposal.2⟩

theorem fieldPlan_renumber (wf : f.WellFormed) (wf' : (f.renumber σ).WellFormed) (hρ : f.SameNumbers σ ρ)
    (hone : f.DeclaredOnce)
    (hmoves : ∀ id, id ∈ moves' ↔ id ∈ moves) (hb : f.binding? name = some b) {moved : List Site}
    (hmoved : ∀ s ∈ moved, s ∈ f.allSites) {path : Path} {x : Place × DestructionPlan}
    (h : f.fieldPlan m (f.placeStatesIn f.graph moves) f.dominators name b moved path = .ok x) :
    ∃ y, (f.renumber σ).fieldPlan m ((f.renumber σ).placeStatesIn (f.renumber σ).graph moves')
      (f.renumber σ).dominators name (b.renumber σ) (moved.map (Site.renumber σ)) path = .ok y ∧
        y.1 = x.1 ∧ x.2.Renumbered ρ y.2 := by
  obtain ⟨p, hp, h⟩ := bind_eq_ok.1 h
  obtain ⟨needs, hneeds, h⟩ := bind_eq_ok.1 h
  cases needs with
  | true =>
    obtain ⟨d, hd, h⟩ := bind_eq_ok.1 h
    obtain ⟨d', hd', hsame⟩ := placePlan_renumber wf wf' hρ hone hmoves hb hmoved hd
    obtain rfl := pure_eq_ok.1 h
    exact ⟨_, bind_eq_ok.2 ⟨p, hp, bind_eq_ok.2 ⟨true, hneeds, bind_eq_ok.2 ⟨d', hd', rfl⟩⟩⟩, rfl, hsame⟩
  | false =>
    obtain rfl := pure_eq_ok.1 h
    exact ⟨_, bind_eq_ok.2 ⟨p, hp, bind_eq_ok.2 ⟨false, hneeds, rfl⟩⟩, rfl, rfl, .never, rfl, rfl⟩

theorem bindingPlans_renumber (wf : f.WellFormed) (wf' : (f.renumber σ).WellFormed) (hρ : f.SameNumbers σ ρ)
    (hone : f.DeclaredOnce)
    (hmoves : ∀ id, id ∈ moves' ↔ id ∈ moves) (hb : f.binding? name = some b) {moved : List Site}
    (hmoved : ∀ s ∈ moved, s ∈ f.allSites) {xs : List (Place × DestructionPlan)}
    (h : f.bindingPlans m (f.placeStatesIn f.graph moves) moved f.dominators name b = .ok xs) :
    ∃ ys, (f.renumber σ).bindingPlans m ((f.renumber σ).placeStatesIn (f.renumber σ).graph moves')
      (moved.map (Site.renumber σ)) (f.renumber σ).dominators name (b.renumber σ) = .ok ys ∧
        OrderedMap.InStep (DestructionPlan.Renumbered ρ) xs ys := by
  have hsites : (moved.map (Site.renumber σ)).filter (·.binding = some name) =
      (moved.filter (·.binding = some name)).map (Site.renumber σ) := List.filter_map
  have hsub : ∀ s ∈ moved.filter (·.binding = some name), s ∈ f.allSites := fun s hs =>
    hmoved s (List.mem_of_mem_filter hs)
  rw [bindingPlans] at h ⊢
  rw [ownership_renumber]
  cases howned : f.ownership b with
  | borrowed =>
    simp only [howned, pure_eq_ok] at h
    subst h
    exact ⟨_, rfl, .cons ⟨rfl, rfl, .never, rfl, rfl⟩ .nil⟩
  | captured =>
    simp only [howned, pure_eq_ok] at h
    subst h
    exact ⟨_, rfl, .cons ⟨rfl, rfl, .never, rfl, rfl⟩ .nil⟩
  | owned =>
    simp only [howned] at h
    obtain ⟨needs, hneeds, h⟩ := bind_eq_ok.1 h
    cases needs with
    | false =>
      replace h := pure_eq_ok.1 h
      subst h
      exact ⟨_, bind_eq_ok.2 ⟨false, hneeds, rfl⟩, .cons ⟨rfl, rfl, .never, rfl, rfl⟩ .nil⟩
    | true =>
      obtain ⟨root, hroot, h⟩ := bind_eq_ok.1 h
      obtain ⟨fields, hfields, h⟩ := bind_eq_ok.1 h
      replace h := pure_eq_ok.1 h
      subst h
      obtain ⟨root', hroot', hsame⟩ := placePlan_renumber wf wf' hρ hone hmoves hb hsub hroot
      obtain ⟨fields', hfields', hall⟩ := exists_mapM_forall₂ hfields fun path _ x hx =>
        fieldPlan_renumber wf wf' hρ hone hmoves hb hsub hx
      simp only [hsites, List.map_map]
      refine ⟨_, bind_eq_ok.2 ⟨true, hneeds, bind_eq_ok.2 ⟨root', hroot',
        bind_eq_ok.2 ⟨fields', hfields', rfl⟩⟩⟩, .cons ⟨rfl, hsame.type, hsame.disposal, rfl, hsame.reason⟩ hall⟩

theorem keys_renumber : (f.renumber σ).bindings.keys = f.bindings.keys := by
  simp [renumber, OrderedMap.keys, OrderedMap.mapEntries, Function.comp_def]

theorem destructionPlans_renumber (wf : f.WellFormed) (wf' : (f.renumber σ).WellFormed) (hρ : f.SameNumbers σ ρ)
    (hone : f.DeclaredOnce)
    (hmoves : moves'.Perm moves) {x : OrderedMap Place DestructionPlan}
    (h : f.destructionPlans m moves = .ok x) :
    ∃ y, (f.renumber σ).destructionPlans m moves' = .ok y ∧
      OrderedMap.InStep (DestructionPlan.Renumbered ρ) x.entries y.entries := by
  obtain ⟨moved, hmoved, h⟩ := bind_eq_ok.1 h
  obtain ⟨plans, hplans, h⟩ := bind_eq_ok.1 h
  obtain rfl := pure_eq_ok.1 h
  have hall : ∀ s ∈ moved, s ∈ f.allSites := fun s hs => by
    obtain ⟨id, _, hid⟩ := mem_of_mapM hmoved hs
    exact List.mem_of_find?_eq_some (optionOr_eq_ok.1 hid)
  obtain ⟨plans', hplans', hsame⟩ := exists_mapM_forall₂ (k := fun name => do
      (f.renumber σ).bindingPlans m ((f.renumber σ).placeStatesIn (f.renumber σ).graph moves')
        (moved.map (Site.renumber σ)) (f.renumber σ).dominators name
        (← (f.renumber σ).getBinding name)) hplans fun name _ plans hplans => by
    obtain ⟨b, hb, hplans⟩ := bind_eq_ok.1 hplans
    rw [getBinding, optionOr_eq_ok] at hb
    obtain ⟨plans', hplans', hstep⟩ := bindingPlans_renumber wf wf' hρ hone (fun _ => hmoves.mem_iff) hb hall hplans
    exact ⟨plans', bind_eq_ok.2 ⟨_, optionOr_eq_ok.2 (binding?_renumber_of hb), hplans'⟩, hstep⟩
  refine ⟨.ofList plans'.flatten, ?_, .ofList ?_⟩
  · refine bind_eq_ok.2 ⟨_, moved_renumber wf' hmoves hmoved, bind_eq_ok.2 ⟨plans', ?_, rfl⟩⟩
    rw [keys_renumber]
    exact hplans'
  · exact List.rel_flatten hsame

end Function
end MovePlan
