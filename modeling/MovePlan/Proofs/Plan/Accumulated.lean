import MovePlan.Proofs.Plan.Total
import MovePlan.Proofs.Text.Typed

set_option autoImplicit false

namespace MovePlan

theorem bind_congr_of_ok {ε α β : Type} {x : Except ε α} {g g' : α → Except ε β}
    (h : ∀ a, x = .ok a → g a = g' a) : (x >>= g) = (x >>= g') := by
  cases x with
  | error e => rfl
  | ok a => exact h a rfl

theorem anyM_congr {ε α : Type} {g g' : α → Except ε Bool} {xs : List α} (h : ∀ x ∈ xs, g x = g' x) :
    xs.anyM g = xs.anyM g' := by
  induction xs with
  | nil => rfl
  | cons x xs ih =>
    rw [List.forall_mem_cons] at h
    rw [List.anyM, List.anyM, h.1, ih h.2]

namespace TypeModel
variable {t t' : TypeTable} (h : t.Begins t') (ht : t.Built)
include h ht

section Answers
variable {id : TypeId} (hid : t.contains id = true)
include hid

theorem isMoveCapable_of_begins : (build t').isMoveCapable id = (build t).isMoveCapable id := by
  rw [isMoveCapable, isMoveCapable, factsOf_of_begins h ht hid]

theorem isViolating_of_begins : (build t').isViolating id = (build t).isViolating id := by
  rw [isViolating, isViolating, factsOf_of_begins h ht hid]

theorem needsDestroy_of_begins : (build t').needsDestroy id = (build t).needsDestroy id := by
  rw [needsDestroy, needsDestroy, factsOf_of_begins h ht hid]

theorem assignRelevant_of_begins : (build t').assignRelevant id = (build t).assignRelevant id := by
  rw [assignRelevant, assignRelevant, isMoveCapable_of_begins h ht hid, needsDestroy_of_begins h ht hid]

omit ht in
theorem get_of_begins : (build t').table.get id = (build t).table.get id := h.get hid

omit ht in
theorem contains_of_begins : (build t').table.contains id = (build t).table.contains id :=
  (h.contains hid).trans hid.symm

omit ht in
theorem hasDestructor_of_begins : (build t').hasDestructor id = (build t).hasDestructor id := by
  rw [hasDestructor, hasDestructor, get_of_begins h hid]

omit ht in
theorem typeName_of_begins : (build t').typeName id = (build t).typeName id := by
  rw [typeName, typeName, get_of_begins h hid]

theorem resolvePath_of_begins (path : List String) :
    (build t').resolvePath id path = (build t).resolvePath id path := by
  have hwalk : (build t').table.walk id path = (build t).table.walk id path := h.walk ht hid path
  rw [resolvePath, resolvePath, hwalk]

theorem fieldBlock?_of_begins (s : Site) : (build t').fieldBlock? id s = (build t).fieldBlock? id s := by
  rw [fieldBlock?, fieldBlock?]
  split
  · rfl
  rw [resolvePath_of_begins h ht hid]
  refine bind_congr_of_ok fun p hp => ?_
  have hchain := contains_of_resolvePath ht.fieldsRegistered hid hp
  have habove : p.ancestors.anyM (build t').hasDestructor = p.ancestors.anyM (build t).hasDestructor :=
    anyM_congr fun x hx => hasDestructor_of_begins h (hchain x (PathTypes.mem_chain_of_mem_ancestors hx))
  rw [habove, isMoveCapable_of_begins h ht (hchain _ p.leaf_mem_chain)]

end Answers

theorem leafType?_of_begins {b : Binding} (hb : t.contains b.type = true) (path : Path) :
    (build t').leafType? b path = (build t).leafType? b path := by
  rw [leafType?, leafType?, contains_of_begins h hb, resolvePath_of_begins h ht hb]

end TypeModel

namespace Function
variable {t t' : TypeTable} {f : Function} {settings : Settings}

theorem TypedIn.temp_mem (hf : f.TypedIn t) {s : Site} (hs : s ∈ f.allSites) {type : TypeId}
    (htype : s.tempType = some type) : t.contains type = true := by
  obtain ⟨id, hs⟩ := mem_allSites.1 hs
  exact hf.temp hs htype

section Parts
variable (h : t.Begins t') (ht : t.Built) (hf : f.TypedIn t)
include h ht

theorem typeFindings_of_begins {b : Binding} (hb : t.contains b.type = true) :
    f.typeFindings (.build t') b = f.typeFindings (.build t) b := by
  simp only [typeFindings, TypeModel.contains_of_begins h hb, TypeModel.resolvePath_of_begins h ht hb]

include hf

omit ht in
theorem siteFindings_of_begins {seen : List SiteId} {id : BlockId} {index : ℕ} {s : Site}
    (hs : s ∈ f.allSites) : f.siteFindings (some (.build t')) seen id index s =
      f.siteFindings (some (.build t)) seen id index s := by
  cases hk : s.kind <;> cases htype : s.tempType
  case moveOut.some type =>
    simp only [siteFindings, hk, htype, TypeModel.contains_of_begins h (hf.temp_mem hs htype)]
  all_goals simp only [siteFindings, hk, htype]

omit ht in
theorem sitesFindings_of_begins {placed : List (BlockId × ℕ × Site)}
    (hplaced : ∀ e ∈ placed, e.2.2 ∈ f.allSites) (seen : List SiteId) :
    f.sitesFindings (some (.build t')) seen placed = f.sitesFindings (some (.build t)) seen placed := by
  induction placed generalizing seen with
  | nil => rfl
  | cons e rest ih =>
    rw [List.forall_mem_cons] at hplaced
    rw [sitesFindings, sitesFindings, siteFindings_of_begins h hf hplaced.1, ih hplaced.2]

theorem validate_of_begins : f.validate (some (.build t')) = f.validate (some (.build t)) := by
  have hsites : f.sitesFindings (some (.build t')) [] f.placedSites =
      f.sitesFindings (some (.build t)) [] f.placedSites := by
    refine sitesFindings_of_begins h hf (fun e he => ?_) []
    obtain ⟨b, hb, he⟩ := List.mem_flatMap.1 he
    obtain ⟨x, hx, rfl⟩ := List.mem_map.1 he
    exact List.mem_flatMap.2 ⟨b, hb, (List.mem_zipIdx' hx).2 ▸ List.getElem_mem _⟩
  have hbindings : f.bindings.values.flatMap (f.bindingFindings (some (.build t'))) =
      f.bindings.values.flatMap (f.bindingFindings (some (.build t))) := by
    refine List.flatMap_congr fun b hb => ?_
    obtain ⟨e, he, rfl⟩ := List.mem_map.1 hb
    have hbound : f.binding? e.1 = some e.2 := (OrderedMap.get?_eq_some_iff _ _ _).2 he
    exact congrArg (f.regionFindings e.2 ++ ·) (typeFindings_of_begins h ht (hf.binding hbound))
  simp only [validate, bodyFindings, hsites, hbindings]

theorem lastUseFacts_of_begins (mode : LastUseMode) :
    f.lastUseFacts (.build t') mode = f.lastUseFacts (.build t) mode := by
  have haccess : ∀ (g : BlockGraph) loops live, ∀ e ∈ f.usedBindings,
      f.accessFacts g (.build t') loops live e.1 e.2 = f.accessFacts g (.build t) loops live e.1 e.2 := by
    intro g loops live e he
    obtain ⟨name, -, hfound⟩ := List.mem_filterMap.1 he
    obtain ⟨b, hb, rfl⟩ := Option.map_eq_some_iff.1 hfound
    simp only [accessFacts, TypeModel.fieldBlock?_of_begins h ht (hf.binding hb)]
  cases mode with
  | fixpoint =>
    simp only [lastUseFacts, List.mapM_map]
    exact congrArg (· >>= _) (mapM_congr fun e he => haccess _ _ _ e he)
  | blockLocal =>
    exact congrArg (· >>= _) (mapM_congr fun e he => haccess _ _ _ e he)

theorem siteType_of_begins (s : Site) : f.siteType (.build t') s = f.siteType (.build t) s := by
  cases hn : s.binding with
  | none => simp only [siteType, hn]
  | some name =>
    simp only [siteType, hn]
    cases hb : f.binding? name with
    | none => rfl
    | some b => simp only [Option.bind_some, TypeModel.leafType?_of_begins h ht (hf.binding hb)]

omit h in
theorem contains_of_siteType {s : Site} (hs : s ∈ f.allSites) {type : TypeId}
    (htype : f.siteType (.build t) s = .ok type) : t.contains type = true := by
  rw [siteType] at htype
  split at htype
  · exact hf.temp_mem hs (optionOr_eq_ok.1 htype)
  · obtain ⟨b, -, hleaf⟩ := Option.bind_eq_some_iff.1 (optionOr_eq_ok.1 htype)
    exact TypeModel.contains_of_leafType? ht.fieldsRegistered hleaf

theorem decisions_of_begins (facts : LastUseFacts) :
    f.decisions (.build t') settings facts = f.decisions (.build t) settings facts := by
  have hdecide : ∀ s ∈ f.allSites,
      f.decideSite (.build t') settings facts s = f.decideSite (.build t) settings facts s := by
    intro s hs
    rw [decideSite, decideSite]
    split
    · rfl
    refine bind_congr_of_ok fun target _ => ?_
    split
    · rfl
    split
    · rfl
    split
    · rfl
    rw [siteType_of_begins h ht hf]
    refine bind_congr_of_ok fun type htype => ?_
    rw [TypeModel.isMoveCapable_of_begins h ht (contains_of_siteType ht hf hs htype)]
  refine congrArg (· >>= _) (mapM_congr fun s hs => ?_)
  rw [hdecide s (List.mem_of_mem_filter hs)]

theorem destructionPlans_of_begins (moves : List SiteId) :
    f.destructionPlans (.build t') moves = f.destructionPlans (.build t) moves := by
  have hfield : ∀ (states : StatesOf) (d : Dominators) (name : String) (b : Binding) (moved : List Site)
      (path : Path), t.contains b.type = true →
      f.fieldPlan (.build t') states d name b moved path = f.fieldPlan (.build t) states d name b moved path := by
    intro states d name b moved path hb
    rw [fieldPlan, fieldPlan, TypeModel.resolvePath_of_begins h ht hb]
    refine bind_congr_of_ok fun p hp => ?_
    have hchain := TypeModel.contains_of_resolvePath ht.fieldsRegistered hb (liftType_eq_ok.1 hp)
    simp only [TypeModel.needsDestroy_of_begins h ht (hchain _ p.leaf_mem_chain)]
  have hbinding : ∀ (states : StatesOf) (moved : List Site) (d : Dominators) (name : String) (b : Binding),
      t.contains b.type = true →
      f.bindingPlans (.build t') states moved d name b = f.bindingPlans (.build t) states moved d name b := by
    intro states moved d name b hb
    have hpaths : ∀ (moved : List Site) (paths : List Path),
        paths.mapM (f.fieldPlan (.build t') states d name b moved) =
        paths.mapM (f.fieldPlan (.build t) states d name b moved) :=
      fun moved paths => mapM_congr fun path _ => hfield states d name b moved path hb
    simp only [bindingPlans, TypeModel.needsDestroy_of_begins h ht hb, hpaths]
  rw [destructionPlans, destructionPlans]
  refine bind_congr_of_ok fun moved _ => ?_
  refine congrArg (· >>= _) (mapM_congr fun name _ => bind_congr_of_ok fun b hb => ?_)
  exact hbinding _ _ _ name b (hf.binding (optionOr_eq_ok.1 hb))

theorem assignPlans_of_begins (moves : List SiteId) (destruction : OrderedMap Place DestructionPlan) :
    f.assignPlans (.build t') settings moves destruction =
      f.assignPlans (.build t) settings moves destruction := by
  have hassign : ∀ (states : StatesOf) (s : Site) (name : String),
      f.assignPlan? (.build t') settings states destruction s name =
        f.assignPlan? (.build t) settings states destruction s name := by
    intro states s name
    rw [assignPlan?, assignPlan?]
    refine bind_congr_of_ok fun b hb => ?_
    rw [TypeModel.leafType?_of_begins h ht (hf.binding (optionOr_eq_ok.1 hb))]
    cases hleaf : (TypeModel.build t).leafType? b s.path with
    | none => rfl
    | some leaf =>
      have hc := TypeModel.contains_of_leafType? ht.fieldsRegistered hleaf
      simp only [TypeModel.assignRelevant_of_begins h ht hc, TypeModel.needsDestroy_of_begins h ht hc]
  simp only [assignPlans, hassign]

theorem fallbackPlan_of_begins (ds : List Diagnostic) :
    f.fallbackPlan (.build t') settings ds = f.fallbackPlan (.build t) settings ds := by
  have hdestruction : f.fallbackDestruction (.build t') = f.fallbackDestruction (.build t) := by
    refine congrArg (· >>= _) (mapM_congr fun e he => ?_)
    obtain ⟨name, -, hfound⟩ := List.mem_filterMap.1 he
    obtain ⟨b, hb, rfl⟩ := Option.map_eq_some_iff.1 hfound
    simp only [TypeModel.contains_of_begins h (hf.binding hb),
      TypeModel.needsDestroy_of_begins h ht (hf.binding hb)]
  have hassign : ∀ s, f.fallbackAssign? (.build t') settings s = f.fallbackAssign? (.build t) settings s := by
    intro s
    rw [fallbackAssign?, fallbackAssign?]
    cases hn : s.binding with
    | none => rfl
    | some name =>
      cases hb : f.binding? name with
      | none => simp only [Option.bind_some, hb, Option.map_none]
      | some b =>
        simp only [Option.bind_some, hb, Option.map_some, TypeModel.leafType?_of_begins h ht (hf.binding hb)]
        cases hleaf : (TypeModel.build t).leafType? b s.path with
        | none => rfl
        | some leaf =>
          have hc := TypeModel.contains_of_leafType? ht.fieldsRegistered hleaf
          simp only [TypeModel.assignRelevant_of_begins h ht hc, TypeModel.needsDestroy_of_begins h ht hc]
  rw [fallbackPlan, fallbackPlan, hdestruction, mapM_congr fun s _ => hassign s]

theorem violations_of_begins : f.violations (.build t') = f.violations (.build t) := by
  have hname : ∀ {id : TypeId}, t.contains id = true →
      violatingName? (.build t') id = violatingName? (.build t) id := by
    intro id hid
    rw [violatingName?, violatingName?, TypeModel.contains_of_begins h hid,
      TypeModel.isViolating_of_begins h ht hid, TypeModel.typeName_of_begins h hid]
  have hbindings : ∀ e ∈ (sortNames f.bindings.keys).filterMap fun name =>
      (f.binding? name).map fun b => (name, b), violatingName? (.build t') e.2.type =
        violatingName? (.build t) e.2.type := by
    intro e he
    obtain ⟨name, -, hfound⟩ := List.mem_filterMap.1 he
    obtain ⟨b, hb, rfl⟩ := Option.map_eq_some_iff.1 hfound
    exact hname (hf.binding hb)
  rw [violations, violations, mapM_congr fun e he => congrArg (· >>= _) (hbindings e he)]
  refine bind_congr_of_ok fun bindings _ => congrArg (· >>= _) (mapM_congr fun s hs => ?_)
  cases htype : s.tempType with
  | none => rfl
  | some type => simp only [hname (hf.temp_mem hs htype)]

theorem bodyPlan_of_begins (settings : Settings) :
    f.bodyPlan (.build t') settings = f.bodyPlan (.build t) settings := by
  have hown : ∀ facts, f.ownPlan (.build t') settings facts = f.ownPlan (.build t) settings facts := by
    intro facts
    rw [ownPlan, ownPlan, decisions_of_begins h ht hf]
    refine bind_congr_of_ok fun decisions _ => bind_congr_of_ok fun ds _ => ?_
    split
    · exact fallbackPlan_of_begins h ht hf ds
    rw [destructionPlans_of_begins h ht hf]
    refine bind_congr_of_ok fun destruction _ => ?_
    rw [assignPlans_of_begins h ht hf]
  rw [bodyPlan, bodyPlan, validate_of_begins h ht hf]
  refine bind_congr_of_ok fun defects _ => ?_
  split
  · exact fallbackPlan_of_begins h ht hf defects
  rw [violations_of_begins h ht hf]
  refine bind_congr_of_ok fun warnings _ => ?_
  split
  · exact fallbackPlan_of_begins h ht hf _
  rw [lastUseFacts_of_begins h ht hf]
  exact bind_congr_of_ok fun facts _ => congrArg (· >>= _) (hown facts)

end Parts
end Function

/-- A function whose types are those of a table has the same plan when types are added to the table. -/
theorem planFunction_of_begins {t t' : TypeTable} (h : t.Begins t') (ht : t.Built) (settings : Settings)
    {f : Function} (hf : Everywhere (Function.TypedIn · t) f) :
    planFunction (.build t') settings f = planFunction (.build t) settings f := by
  induction f using nested_induction with
  | step f ih =>
  have hinner : f.nested.mapM (planFunction (.build t') settings) =
      f.nested.mapM (planFunction (.build t) settings) :=
    mapM_congr fun g hg => ih g hg (hf.inside hg)
  rw [Function.planFunction_eq, Function.planFunction_eq, planFunctions_eq, planFunctions_eq, hinner,
    Function.bodyPlan_of_begins h ht hf.here]

namespace Program

/-- All of the earlier program is in the later one, and its functions have their plans. -/
structure Continues (p p' : Program) : Prop where
  functions : p.functions <+: p'.functions
  diagnostics : p.diagnostics <+: p'.diagnostics
  types : p.table.defs <+: p'.table.defs
  ids : ∀ {id : TypeId} {d : TypeDef}, p.table.get? id = some d → p'.table.get? id = some d
  plans : ∀ f ∈ p.functions, Everywhere (fun g => ∀ settings : Settings,
    planFunction (.build p'.table) settings g = planFunction (.build p.table) settings g) f

/-- A text that is added leaves what the texts before it made; one that cannot be read adds one
diagnostic. -/
theorem addText_continues {texts : List (String × Option String)} {p p' : Program}
    (h : ofTexts texts = .ok p) {text : String} {file : Option String} (hadd : p.addText text file = .ok p') :
    p.Continues p' ∧ ((∃ e, Text.readText text = .error e) →
      ∃ d, d.code = some "E_SYNTAX" ∧ p' = { p with diagnostics := p.diagnostics ++ [d] }) := by
  have hbegins := begins_of_addText hadd
  refine ⟨⟨?_, (extends_of_addText hadd).2, hbegins, fun {id d} hd => ?_, fun f hf => ?_⟩, ?_⟩
  · rcases functions_of_addText hadd with heq | ⟨ds, fs, b, b', -, -, heq⟩
    · exact ⟨[], by rw [List.append_nil, heq]⟩
    · exact ⟨fs, heq.symm⟩
  · have hid : p.table.contains id = true := by
      rw [TypeTable.contains, hd]
      rfl
    rw [hbegins.get? hid, hd]
  · have htyped := typedIn h f hf
    clear hf
    induction f using nested_induction with
    | step f ih =>
      refine .mk (fun settings => planFunction_of_begins hbegins (built h) settings htyped) fun g hg => ?_
      exact ih g hg (htyped.inside hg)
  · rintro ⟨e, he⟩
    rw [addText, he] at hadd
    exact ⟨_, rfl, (Except.ok.inj hadd).symm⟩

def firstTexts : List (String × Option String) := [("struct A { x: Nil } fn f(a: A) { block 0: ret }", none)]

def nextText : String := "struct A { y: *A } fn g(a: *A) { block 0: ret }"

theorem addText_nextText :
    ∃ p p' q, ofTexts firstTexts = .ok p ∧ p.functions.length = 1 ∧
      p.addText nextText none = .ok p' ∧ p.Continues p' ∧
      p.addText "fn" none = .ok q ∧ ∃ d, d.code = some "E_SYNTAX" ∧
        q = { p with diagnostics := p.diagnostics ++ [d] } := by
  have hfacts : ((ofTexts firstTexts).bind fun p => (p.addText nextText none).map fun p' =>
      (p, p')).map (fun pair => (pair.1.functions.length, pair.2.functions.length)) = .ok (1, 2) := by
    decide +kernel
  obtain ⟨⟨p, p'⟩, hpair, hlength⟩ := map_eq_ok.1 hfacts
  obtain ⟨q, hp, hq⟩ := bind_eq_ok.1 hpair
  obtain ⟨q', hadd, heq⟩ := map_eq_ok.1 hq
  obtain ⟨rfl, rfl⟩ := Prod.mk.inj heq
  have hunread : ∃ e, Text.readText "fn" = .error e := by
    have hfails : (Text.readText "fn").isOk = false := by decide +kernel
    cases h : Text.readText "fn" with
    | error e => exact ⟨e, rfl⟩
    | ok ds =>
      rw [h] at hfails
      cases hfails
  obtain ⟨e, he⟩ := hunread
  have hsyntax : ∃ r, q.addText "fn" none = .ok r := by
    rw [addText, he]
    exact ⟨_, rfl⟩
  obtain ⟨r, hr⟩ := hsyntax
  exact ⟨q, q', r, hp, (Prod.mk.inj hlength).1, hadd, (addText_continues hp hadd).1, hr,
    (addText_continues hp hr).2 ⟨e, he⟩⟩

end Program
end MovePlan
