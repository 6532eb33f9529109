import MovePlan.Proofs.Analysis.Replay
import MovePlan.Proofs.Flow.Dominator
import MovePlan.Proofs.Plan.Transfer
import MovePlan.Proofs.Text.Produced
import MovePlan.Types.Standard

set_option autoImplicit false

namespace MovePlan
namespace Function
variable {f : Function} {m : TypeModel} {settings : Settings} {plan : FunctionPlan}
  {moves : List SiteId} {place : Place} {b : Binding}

theorem mem_exitStates {r : PlaceStates} (hb : f.binding? place.binding = some b)
    (h : f.placeStatesIn f.graph moves place = .ok r) {e : ScopeExit × MoveState} :
    e ∈ r.exitStates ↔ e.1 ∈ f.scopeExits f.graph b ∧
      e.2 = ((f.statesAtEnd f.graph moves place b).at? .empty e.1.block).summary := by
  rw [PlaceStates.exitStates, List.mem_map]
  constructor
  · rintro ⟨⟨x, states⟩, hmem, rfl⟩
    obtain ⟨hx, rfl⟩ := (get?_exits hb h).1 ((r.exits.get?_eq_some_iff _ _).2 hmem)
    exact ⟨hx, rfl⟩
  · rintro ⟨hx, he⟩
    have hfound := (get?_exits hb h).2 ⟨hx, rfl⟩
    exact ⟨_, (r.exits.get?_eq_some_iff _ _).1 hfound, Prod.ext rfl he.symm⟩

/-- The states at the ends of a lifetime show a value that some run leaves alive there. -/
theorem alive_exitStates (wf : f.WellFormed) {r : PlaceStates}
    (hb : f.binding? place.binding = some b) (h : f.placeStatesIn f.graph moves place = .ok r) :
    (∃ e ∈ r.exitStates, e.2 = .valid ∨ e.2 = .maybe) ↔
      ∃ x ∈ f.scopeExits f.graph b, f.Leaves moves place b x.block .valid := by
  have halive : ∀ x ∈ f.scopeExits f.graph b,
      (((f.statesAtEnd f.graph moves place b).at? .empty x.block).summary = .valid ∨
        ((f.statesAtEnd f.graph moves place b).at? .empty x.block).summary = .maybe) ↔
      f.Leaves moves place b x.block .valid := by
    intro x hx
    rw [← StateSet.valid_iff_summary, ← has_statesAtEnd wf (mem_scopeExits.1 hx).1.1]
    rfl
  constructor
  · rintro ⟨e, he, hv⟩
    obtain ⟨hx, heq⟩ := (mem_exitStates hb h).1 he
    rw [heq] at hv
    exact ⟨e.1, hx, (halive e.1 hx).1 hv⟩
  · rintro ⟨x, hx, hleaves⟩
    exact ⟨(x, _), (mem_exitStates hb h).2 ⟨hx, rfl⟩, (halive x hx).2 hleaves⟩

def shortcut (f : Function) (d : Dominators) (b : Binding) (r : PlaceStates)
    (placeMoves : List Site) : Except Fault Bool :=
  if placeMoves.isEmpty || !(f.reinits r).isEmpty || (r.exitStates.map Prod.fst).isEmpty then .ok false
  else f.anyDominates d b (r.exitStates.map Prod.fst) placeMoves

theorem of_placePlan {states : StatesOf} {d : Dominators} {type : TypeId} {movedSites : List Site}
    {x : DestructionPlan} (h : f.placePlan states d b place type movedSites = .ok x) :
    ∃ r, states place = .ok r ∧
      ((f.shortcut d b r (movedSites.filter (·.reaches place)) = .ok true ∧
          x = { type := type, disposal := .never, reason := .dominatingMove }) ∨
        (f.shortcut d b r (movedSites.filter (·.reaches place)) = .ok false ∧
          x = { type := type
                disposal := (f.disposalFromStates b (movedSites.filter (·.reaches place)) r).1
                reason := (f.disposalFromStates b (movedSites.filter (·.reaches place)) r).2 })) := by
  obtain ⟨r, hr, h⟩ := bind_eq_ok.1 h
  refine ⟨r, hr, ?_⟩
  rw [shortcut]
  simp only at h
  split at h
  next hskip =>
    rw [if_pos hskip]
    exact .inr ⟨rfl, (pure_eq_ok.1 h).symm⟩
  next hskip =>
    rw [if_neg hskip]
    obtain ⟨dominated, hdominated, h⟩ := bind_eq_ok.1 h
    cases dominated with
    | true => exact .inl ⟨hdominated, (pure_eq_ok.1 h).symm⟩
    | false => exact .inr ⟨hdominated, (pure_eq_ok.1 h).symm⟩

theorem type_of_placePlan {states : StatesOf} {d : Dominators} {type : TypeId} {movedSites : List Site}
    {x : DestructionPlan} (h : f.placePlan states d b place type movedSites = .ok x) :
    x.type = type := by
  obtain ⟨r, _, ⟨_, rfl⟩ | ⟨_, rfl⟩⟩ := of_placePlan h
  · rfl
  · rfl

theorem fieldPlan_cases {states : StatesOf} {d : Dominators} {name : String} {movedSites : List Site}
    {path : Path} {e : Place × DestructionPlan}
    (h : f.fieldPlan m states d name b movedSites path = .ok e) :
    e.1 = { binding := name, path := path } ∧ ∃ needs, m.needsDestroy e.2.type = .ok needs ∧
      if needs then f.placePlan states d b e.1 e.2.type movedSites = .ok e.2
      else e.2.disposal = .never := by
  obtain ⟨p, _, h⟩ := bind_eq_ok.1 h
  obtain ⟨needs, hleaf, h⟩ := bind_eq_ok.1 h
  rw [liftType_eq_ok] at hleaf
  cases needs with
  | true =>
    obtain ⟨x, hx, h⟩ := bind_eq_ok.1 h
    rw [pure_eq_ok] at h
    subst h
    have htype : x.type = p.leaf := type_of_placePlan hx
    refine ⟨rfl, true, by rw [← hleaf, ← htype], ?_⟩
    rw [if_pos rfl, htype]
    exact hx
  | false =>
    replace h := pure_eq_ok.1 h
    subst h
    exact ⟨rfl, false, hleaf, rfl⟩

/-- A binding that owes nothing has one plan. The plans of another are one for its own place, and one for
each field path that is moved. -/
theorem bindingPlans_cases {states : StatesOf} {d : Dominators} {name : String} {moved : List Site}
    {plans : List (Place × DestructionPlan)}
    (h : f.bindingPlans m states moved d name b = .ok plans) :
    (∃ reason, plans = [({ binding := name }, { type := b.type, disposal := .never, reason := reason })] ∧
      (f.ownership b = .owned → m.needsDestroy b.type = .ok false)) ∨
    (f.ownership b = .owned ∧ m.needsDestroy b.type = .ok true ∧
      ∃ (root : DestructionPlan) (paths : List Path) (fields : List (Place × DestructionPlan)),
        [] ∉ paths ∧
        f.placePlan states d b { binding := name } b.type (moved.filter (·.binding = some name)) = .ok root ∧
        paths.mapM (f.fieldPlan m states d name b (moved.filter (·.binding = some name))) = .ok fields ∧
        plans = ({ binding := name }, { root with isPartial := !paths.isEmpty }) :: fields) := by
  rw [bindingPlans] at h
  cases howned : f.ownership b with
  | borrowed =>
    simp only [howned, pure_eq_ok] at h
    exact .inl ⟨_, h.symm, by simp⟩
  | captured =>
    simp only [howned, pure_eq_ok] at h
    exact .inl ⟨_, h.symm, by simp⟩
  | owned =>
    simp only [howned] at h
    obtain ⟨needs, hroot, h⟩ := bind_eq_ok.1 h
    rw [liftType_eq_ok] at hroot
    cases needs with
    | false => exact .inl ⟨_, (pure_eq_ok.1 h).symm, fun _ => hroot⟩
    | true =>
      obtain ⟨root, hplan, h⟩ := bind_eq_ok.1 h
      obtain ⟨fields, hfields, h⟩ := bind_eq_ok.1 h
      refine .inr ⟨rfl, hroot, root, _, fields, ?_, hplan, hfields, (pure_eq_ok.1 h).symm⟩
      rw [mem_sortBy, mem_distinct, List.mem_filter]
      simp

theorem binding_of_bindingPlans {states : StatesOf} {d : Dominators} {name : String}
    {moved : List Site} {plans : List (Place × DestructionPlan)}
    (h : f.bindingPlans m states moved d name b = .ok plans) {e : Place × DestructionPlan}
    (he : e ∈ plans) : e.1.binding = name := by
  rcases bindingPlans_cases h with ⟨reason, rfl, _⟩ | ⟨_, _, root, paths, fields, _, _, hfields, rfl⟩
  · rw [List.mem_singleton.1 he]
  · rcases List.mem_cons.1 he with rfl | he
    · rfl
    · obtain ⟨path, _, hfield⟩ := mem_of_mapM hfields he
      rw [(fieldPlan_cases hfield).1]

/-- The plan of a place whose type owes destruction follows from the moves of its binding and the
states of the place; a plan may leave the moved parts of the place to plans of their own. -/
theorem of_bindingPlans {states : StatesOf} {d : Dominators} {name : String} {moved : List Site}
    {plans : List (Place × DestructionPlan)}
    (h : f.bindingPlans m states moved d name b = .ok plans) (howned : f.ownership b = .owned)
    {e : Place × DestructionPlan} (he : e ∈ plans) (hneeds : m.needsDestroy e.2.type = .ok true) :
    e.1.binding = name ∧ ∃ x, f.placePlan states d b e.1 e.2.type
      (moved.filter (·.binding = some name)) = .ok x ∧ e.2.disposal = x.disposal ∧
      e.2.reason = x.reason := by
  refine ⟨binding_of_bindingPlans h he, ?_⟩
  rcases bindingPlans_cases h with ⟨reason, rfl, hno⟩ | ⟨_, _, root, paths, fields, _, hplan, hfields, rfl⟩
  · obtain rfl := List.mem_singleton.1 he
    rw [hno howned] at hneeds
    cases hneeds
  rcases List.mem_cons.1 he with rfl | he
  · have htype : root.type = b.type := type_of_placePlan hplan
    rw [← htype] at hplan
    exact ⟨root, hplan, rfl, rfl⟩
  · obtain ⟨path, _, hfield⟩ := mem_of_mapM hfields he
    obtain ⟨_, needs, hleaf, hcase⟩ := fieldPlan_cases hfield
    rw [hneeds, Except.ok.injEq] at hleaf
    subst hleaf
    rw [if_pos rfl] at hcase
    exact ⟨e.2, hcase, rfl, rfl⟩

theorem owed_of_bindingPlans {states : StatesOf} {d : Dominators} {name : String} {moved : List Site}
    {plans : List (Place × DestructionPlan)}
    (h : f.bindingPlans m states moved d name b = .ok plans) {e : Place × DestructionPlan}
    (he : e ∈ plans) (hne : e.2.disposal ≠ .never) :
    f.ownership b = .owned ∧ m.needsDestroy e.2.type = .ok true := by
  rcases bindingPlans_cases h with
    ⟨reason, rfl, _⟩ | ⟨howned, hneeds, root, paths, fields, _, hplan, hfields, rfl⟩
  · rw [List.mem_singleton.1 he] at hne
    exact absurd rfl hne
  refine ⟨howned, ?_⟩
  rcases List.mem_cons.1 he with rfl | he
  · change m.needsDestroy root.type = .ok true
    rw [type_of_placePlan hplan]
    exact hneeds
  · obtain ⟨path, _, hfield⟩ := mem_of_mapM hfields he
    obtain ⟨_, needs, hleaf, hcase⟩ := fieldPlan_cases hfield
    cases needs with
    | true => exact hleaf
    | false => exact absurd hcase hne

theorem type_of_bindingPlans {states : StatesOf} {d : Dominators} {name : String} {moved : List Site}
    {plans : List (Place × DestructionPlan)}
    (h : f.bindingPlans m states moved d name b = .ok plans) {e : Place × DestructionPlan}
    (he : e ∈ plans) : ∃ p, m.resolvePath b.type e.1.path = .ok p ∧ e.2.type = p.leaf := by
  rcases bindingPlans_cases h with ⟨reason, rfl, _⟩ | ⟨_, _, root, paths, fields, _, hplan, hfields, rfl⟩
  · rw [List.mem_singleton.1 he]
    exact ⟨_, rfl, rfl⟩
  rcases List.mem_cons.1 he with rfl | he
  · have htype : root.type = b.type := type_of_placePlan hplan
    exact ⟨_, rfl, htype⟩
  · obtain ⟨path, _, hfield⟩ := mem_of_mapM hfields he
    have hplace := (fieldPlan_cases hfield).1
    obtain ⟨p, hp, hfield⟩ := bind_eq_ok.1 hfield
    rw [liftType_eq_ok] at hp
    rw [hplace]
    refine ⟨p, hp, ?_⟩
    obtain ⟨needs, _, hfield⟩ := bind_eq_ok.1 hfield
    cases needs with
    | true =>
      obtain ⟨x, hx, hfield⟩ := bind_eq_ok.1 hfield
      rw [← pure_eq_ok.1 hfield]
      have htype : x.type = p.leaf := type_of_placePlan hx
      exact htype
    | false => rw [← pure_eq_ok.1 hfield]

theorem Planned.bindingPlans (hp : f.Planned m settings plan) {d : DestructionPlan}
    (hd : plan.destruction.get? place = some d) :
    ∃ moved b plans, (sortInts plan.moves).mapM f.getSite = .ok moved ∧
      f.binding? place.binding = some b ∧
      f.bindingPlans m (f.placeStatesIn f.graph plan.moves) moved f.dominators place.binding b =
        .ok plans ∧ (place, d) ∈ plans := by
  obtain ⟨moved, hmoved, h⟩ := bind_eq_ok.1 hp.destruction
  obtain ⟨plans, hplans, h⟩ := bind_eq_ok.1 h
  rw [pure_eq_ok] at h
  rw [← h, OrderedMap.get?_ofList] at hd
  obtain ⟨part, hpart, hmem⟩ := List.mem_flatten.1 (mem_of_lastWrite hd)
  obtain ⟨name, _, hbinding⟩ := mem_of_mapM hplans hpart
  obtain ⟨b, hb, hbinding⟩ := bind_eq_ok.1 hbinding
  rw [getBinding, optionOr_eq_ok] at hb
  have hname : place.binding = name := binding_of_bindingPlans hbinding hmem
  subst hname
  exact ⟨moved, b, part, hmoved, hb, hbinding, hmem⟩

theorem Planned.placePlan (hp : f.Planned m settings plan) {d : DestructionPlan}
    (hd : plan.destruction.get? place = some d) (hb : f.binding? place.binding = some b)
    (howned : f.ownership b = .owned) (hneeds : m.needsDestroy d.type = .ok true) :
    ∃ moved x, (sortInts plan.moves).mapM f.getSite = .ok moved ∧
      f.placePlan (f.placeStatesIn f.graph plan.moves) f.dominators b place d.type
        (moved.filter (·.binding = some place.binding)) = .ok x ∧
      d.disposal = x.disposal ∧ d.reason = x.reason := by
  obtain ⟨moved, b', plans, hmoved, hb', hplans, hmem⟩ := hp.bindingPlans hd
  rw [hb, Option.some.injEq] at hb'
  subst hb'
  obtain ⟨_, x, hx, hdisposal, hreason⟩ := of_bindingPlans hplans howned hmem hneeds
  exact ⟨moved, x, hmoved, hx, hdisposal, hreason⟩

end Function
end MovePlan
