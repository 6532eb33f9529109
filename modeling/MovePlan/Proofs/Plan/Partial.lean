import MovePlan.Proofs.Plan.Destruction
import MovePlan.Proofs.Run

set_option autoImplicit false

namespace MovePlan

namespace Place

def Encloses (p q : Place) : Prop :=
  p.binding = q.binding ∧ p.path <+: q.path ∧ p.path ≠ q.path

instance (p q : Place) : Decidable (p.Encloses q) :=
  inferInstanceAs (Decidable (_ ∧ _ ∧ _))

theorem encloses_or_encloses {p q part : Place} (hp : p.binding = part.binding)
    (hq : q.binding = part.binding) (hpPart : p.path <+: part.path) (hqPart : q.path <+: part.path)
    (hne : p ≠ q) : p.Encloses q ∨ q.Encloses p := by
  have hbinding := hp.trans hq.symm
  have hpaths : p.path ≠ q.path := by
    intro h
    refine hne ?_
    rw [Place.mk.injEq]
    exact ⟨hbinding, h⟩
  rcases List.prefix_or_prefix_of_prefix hpPart hqPart with h | h
  · exact .inl ⟨hbinding, h, hpaths⟩
  · exact .inr ⟨hbinding.symm, h, hpaths.symm⟩

end Place

namespace FunctionPlan

/-- To destroy the place is to destroy the part. A partial plan leaves out what has a plan of its own. -/
def Destroys (p : FunctionPlan) (place part : Place) : Prop :=
  place.binding = part.binding ∧ place.path <+: part.path ∧
    ∀ d, p.destruction.get? place = some d → d.isPartial = true →
      ∀ q ∈ p.destruction.keys, place.Encloses q → ¬ q.path <+: part.path

/-- Where the lifetimes of the bindings end, the plans of two places destroy the same part. -/
def DestroysTwice (p : FunctionPlan) (r : Run) (names : List String) (part : Place) : Prop :=
  ∃ x ∈ r.owedPlaces p names, ∃ y ∈ r.owedPlaces p names,
    x ≠ y ∧ p.Destroys x part ∧ p.Destroys y part

end FunctionPlan

namespace Function
variable {f : Function} {m : TypeModel} {settings : Settings} {plan : FunctionPlan}

theorem isPartial_of_placePlan {states : StatesOf} {doms : Dominators} {b : Binding} {place : Place}
    {type : TypeId} {moved : List Site} {x : DestructionPlan}
    (h : f.placePlan states doms b place type moved = .ok x) : x.isPartial = false := by
  obtain ⟨r, _, ⟨_, rfl⟩ | ⟨_, rfl⟩⟩ := of_placePlan h
  · rfl
  · rfl

theorem isPartial_of_fieldPlan {states : StatesOf} {doms : Dominators} {name : String} {b : Binding}
    {moved : List Site} {path : Path} {e : Place × DestructionPlan}
    (h : f.fieldPlan m states doms name b moved path = .ok e) : e.2.isPartial = false := by
  obtain ⟨p, _, h⟩ := bind_eq_ok.1 h
  obtain ⟨needs, _, h⟩ := bind_eq_ok.1 h
  cases needs with
  | true =>
    obtain ⟨x, hx, h⟩ := bind_eq_ok.1 h
    rw [← pure_eq_ok.1 h]
    exact isPartial_of_placePlan hx
  | false => rw [← pure_eq_ok.1 h]

/-- Among the plans of a binding, one that encloses another is partial just if it is that of the binding
as a whole. -/
theorem isPartial_of_bindingPlans {states : StatesOf} {doms : Dominators} {name : String} {b : Binding}
    {moved : List Site} {plans : List (Place × DestructionPlan)}
    (h : f.bindingPlans m states moved doms name b = .ok plans) {x y : Place × DestructionPlan}
    (hx : x ∈ plans) (hy : y ∈ plans) (hxy : x.1.Encloses y.1) :
    x.2.isPartial = true ↔ x.1.path = [] := by
  rcases bindingPlans_cases h with ⟨reason, rfl, _⟩ | ⟨_, _, root, paths, fields, hpaths, _, hfields, rfl⟩
  · rw [List.mem_singleton.1 hx, List.mem_singleton.1 hy] at hxy
    exact absurd rfl hxy.2.2
  rcases List.mem_cons.1 hx with rfl | hx
  · refine iff_of_true ?_ rfl
    rcases List.mem_cons.1 hy with rfl | hy
    · exact absurd rfl hxy.2.2
    obtain ⟨path, hpath, _⟩ := mem_of_mapM hfields hy
    have hne : paths ≠ [] := List.ne_nil_of_mem hpath
    simpa using hne
  · obtain ⟨path, hpath, hfield⟩ := mem_of_mapM hfields hx
    refine iff_of_false ?_ ?_
    · rw [isPartial_of_fieldPlan hfield]
      decide
    · rw [(fieldPlan_cases hfield).1]
      rintro rfl
      exact hpaths hpath

theorem Planned.isPartial_iff (hp : f.Planned m settings plan) {x y : Place}
    {d e : DestructionPlan} (hd : plan.destruction.get? x = some d)
    (he : plan.destruction.get? y = some e) (hxy : x.Encloses y) :
    d.isPartial = true ↔ x.path = [] := by
  obtain ⟨moved, b, plans, hmoved, hb, hplans, hmem⟩ := hp.bindingPlans hd
  obtain ⟨moved', b', plans', hmoved', hb', hplans', hmem'⟩ := hp.bindingPlans he
  rw [hmoved, Except.ok.injEq] at hmoved'
  subst hmoved'
  rw [← hxy.1, hb, Option.some.injEq] at hb'
  subst hb'
  rw [← hxy.1, hplans, Except.ok.injEq] at hplans'
  subst hplans'
  exact isPartial_of_bindingPlans hplans hmem hmem' hxy

theorem Planned.path_ne_nil (hp : f.Planned m settings plan) {x y part : Place}
    {d e : DestructionPlan} (hd : plan.destruction.get? x = some d)
    (he : plan.destruction.get? y = some e) (hxy : x.Encloses y) (hx : plan.Destroys x part)
    (hy : y.path <+: part.path) : x.path ≠ [] := by
  intro hroot
  refine hx.2.2 d hd ((hp.isPartial_iff hd he hxy).2 hroot) y ?_ hxy hy
  rw [← OrderedMap.contains_iff, OrderedMap.contains, he]
  rfl

theorem Planned.destroys (hp : f.Planned m settings plan) {x part : Place}
    (hbinding : x.binding = part.binding) (hpart : x.path <+: part.path) (hne : x.path ≠ []) :
    plan.Destroys x part := by
  refine ⟨hbinding, hpart, fun d hd hpartial q hq hxq _ => hne ?_⟩
  rw [← OrderedMap.contains_iff, OrderedMap.contains, Option.isSome_iff_exists] at hq
  obtain ⟨e, he⟩ := hq
  exact (hp.isPartial_iff hd he hxq).1 hpartial

/-- Where one place of a binding encloses another, its plan is partial just if it is that of the binding
as a whole. So two plans destroy the same part just if both places are owed, both contain the part, and
the one that encloses the other is a field path. -/
theorem partial_exact (hplan : planFunction m settings f = .ok plan) (hx : plan.excluded = false) :
    (∀ (x y : Place) (d e : DestructionPlan), plan.destruction.get? x = some d →
      plan.destruction.get? y = some e → x.Encloses y → (d.isPartial = true ↔ x.path = [])) ∧
    ∀ (r : Run) (names : List String) (part : Place), plan.DestroysTwice r names part ↔
      ∃ x ∈ r.owedPlaces plan names, ∃ y ∈ r.owedPlaces plan names,
        x.path ≠ [] ∧ x.Encloses y ∧ y.binding = part.binding ∧ y.path <+: part.path := by
  have hp := planned_of_planFunction hplan hx
  refine ⟨fun x y d e hd he hxy => hp.isPartial_iff hd he hxy, fun r names part => ⟨?_, ?_⟩⟩
  · rintro ⟨x, hxOwed, y, hyOwed, hne, hxPart, hyPart⟩
    obtain ⟨_, d, hd, _⟩ := Run.mem_owedPlaces.1 hxOwed
    obtain ⟨_, e, he, _⟩ := Run.mem_owedPlaces.1 hyOwed
    rcases Place.encloses_or_encloses hxPart.1 hyPart.1 hxPart.2.1 hyPart.2.1 hne with hxy | hyx
    · exact ⟨x, hxOwed, y, hyOwed, hp.path_ne_nil hd he hxy hxPart hyPart.2.1, hxy, hyPart.1, hyPart.2.1⟩
    · exact ⟨y, hyOwed, x, hxOwed, hp.path_ne_nil he hd hyx hyPart hxPart.2.1, hyx, hxPart.1, hxPart.2.1⟩
  · rintro ⟨x, hxOwed, y, hyOwed, hne, hxy, hbinding, hpart⟩
    refine ⟨x, hxOwed, y, hyOwed, fun heq => hxy.2.2 (by rw [heq]), ?_, ?_⟩
    · exact hp.destroys (hxy.1.trans hbinding) (hxy.2.1.trans hpart) hne
    · refine hp.destroys hbinding hpart fun hnil => hne ?_
      have hbelow := hxy.2.1
      rw [hnil] at hbelow
      exact List.prefix_nil.1 hbelow

/-- A parameter that loses a field on one arm and a part of that field on another. -/
def splitTwice : Function :=
  (Script.run .standard "f" .empty [
    .param "h" (.named "Holder") .value false,
    .branchThen [
      .moveOut (.place "h.inner") (some (.argument "g" 0 .value false false)) false false,
      .ret .value []],
    .branchThen [
      .moveOut (.place "h.inner.name") (some (.argument "g" 0 .value false false)) false false,
      .ret .value []],
    .ret .value []]).function

def splitTwicePlan : FunctionPlan :=
  (planFunction (TypeModel.build .standard) {} splitTwice).toOption.getD default

theorem planFunction_splitTwice :
    planFunction (TypeModel.build .standard) {} splitTwice = .ok splitTwicePlan :=
  eq_ok_of_isOk (by decide +kernel)

theorem partial_splitTwice :
    (∀ (x y : Place) (d e : DestructionPlan), splitTwicePlan.destruction.get? x = some d →
      splitTwicePlan.destruction.get? y = some e → x.Encloses y →
        (d.isPartial = true ↔ x.path = [])) ∧
    ∀ (r : Run) (names : List String) (part : Place), splitTwicePlan.DestroysTwice r names part ↔
      ∃ x ∈ r.owedPlaces splitTwicePlan names, ∃ y ∈ r.owedPlaces splitTwicePlan names,
        x.path ≠ [] ∧ x.Encloses y ∧ y.binding = part.binding ∧ y.path <+: part.path :=
  partial_exact planFunction_splitTwice (by decide +kernel)

/-- The field has a plan of its own and so has its part, but the plan of the field is not partial. The
run that takes neither arm that moves destroys the part, and then the whole field. -/
theorem partial_destroysTwice :
    Produced splitTwice ∧ splitTwice.validate (some (TypeModel.build .standard)) = .ok [] ∧
      planFunction (TypeModel.build .standard) {} splitTwice = .ok splitTwicePlan ∧
      splitTwicePlan.excluded = false ∧
      (splitTwicePlan.destruction.get? { binding := "h", path := ["inner"] }).map
        DestructionPlan.isPartial = some false ∧
      splitTwicePlan.destruction.contains { binding := "h", path := ["inner", "name"] } = true ∧
      (splitTwice.run splitTwicePlan (.ofList [(0, .always 1), (3, .always 1)]) 100).toOption.map
          Run.destroyed =
        some #[{ binding := "h", path := ["inner", "name"] }, { binding := "h", path := ["inner"] },
          { binding := "h" }] := by
  refine ⟨.script .., ?_, planFunction_splitTwice, ?_, ?_, ?_, ?_⟩
  all_goals decide +kernel

end Function
end MovePlan
