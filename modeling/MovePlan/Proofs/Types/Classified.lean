import MovePlan.Proofs.Types.Classified.Reported

set_option autoImplicit false

namespace MovePlan

/-- A step transfers the field, and moves it exactly if its type is capable. -/
def FieldStep.Transfers (capable : TypeId → Prop) (f : Field) (s : FieldStep) : Prop :=
  s.field = f.name ∧ s.type = f.type ∧ (s.mode = .move ↔ capable f.type)

theorem FieldStep.Transfers.unique {capable : TypeId → Prop} {fields : List Field} {a b : List FieldStep}
    (ha : List.Forall₂ (FieldStep.Transfers capable) fields a)
    (hb : List.Forall₂ (FieldStep.Transfers capable) fields b) : a = b := by
  induction ha generalizing b with
  | nil => cases hb; rfl
  | @cons f x fields a hx _ ih =>
    cases hb with
    | @cons _ y _ b hy hb =>
      have hmode : x.mode = y.mode := by
        have hiff : x.mode = .move ↔ y.mode = .move := hx.2.2.trans hy.2.2.symm
        cases hm : x.mode <;> cases hm' : y.mode <;> simp_all
      have hxy : x = y := by
        cases x
        cases y
        simp_all [FieldStep.Transfers]
      rw [hxy, ih hb]

/-- The facts of a type are those that the types it reaches give it. -/
structure TypeFacts.Exact (t : TypeTable) (id : TypeId) (x : TypeFacts) : Prop where
  violating : x.violating = true ↔ t.Faulty id
  capable : ¬ t.Faulty id → (x.moveCapable = true ↔ t.Movable id)
  destroy : ¬ t.Faulty id → (x.needsDestroy = true ↔ t.Owning id)
  absent : x.moveCapable = false → x.ops = none
  present : x.moveCapable = true → ∃ d steps, t.get? id = some d ∧
    x.ops = some (d.ops.complete steps) ∧ List.Forall₂ (FieldStep.Transfers t.Movable) d.fields steps

namespace Classification
variable {t : TypeTable}

/-- What is known is exact, and what is reported has a cause. -/
structure Faithful (t : TypeTable) (c : Classification) : Prop where
  exact : ∀ id x, c.facts.get? id = some x → x.Exact t id
  founded : c.diagnostics ≠ [] → ∃ id, t.contains id = true ∧ t.Faulty id

theorem Faithful.report {c : Classification} (h : Faithful t c) {id : TypeId}
    (hid : t.contains id = true) (hf : t.Faulty id) (code message : String) (span : Span) :
    Faithful t (c.report code message span) :=
  ⟨h.exact, fun _ => ⟨id, hid, hf⟩⟩

theorem Faithful.put {c : Classification} (h : Faithful t c) {id : TypeId} {x : TypeFacts}
    (hx : x.Exact t id) : Faithful t { c with facts := c.facts.put id x } := by
  refine ⟨?_, h.founded⟩
  intro k y hy
  rw [OrderedMap.get?_put] at hy
  split at hy
  next hk =>
    rw [Option.some.injEq] at hy
    rwa [hk, ← hy]
  next => exact h.exact k y hy

theorem failingMoves_iff {d : TypeDef} (hd : d.IsAuthored) :
    (!(failingMoves d).isEmpty) = true ↔ d.MayFail := by
  have half : ∀ (what : String) (m : Option UserMove),
      ((m.filter UserMove.canFail).toList.map fun m => (what, m)) ≠ [] ↔
        ∃ x, m = some x ∧ x.canFail = true := by
    intro what m
    cases m with
    | none => simp
    | some x => cases hx : x.canFail <;> simp [Option.filter, hx]
  have hor : failingMoves d ≠ [] ↔ (∃ x, d.ops.moveCtor = some x ∧ x.canFail = true) ∨
      ∃ x, d.ops.moveAssign = some x ∧ x.canFail = true := by
    rw [← half "move constructor", ← half "move assignment", failingMoves, ne_eq,
      List.append_eq_nil_iff]
    exact not_and_or
  rw [Bool.not_eq_true', List.isEmpty_eq_false_iff, hor, TypeDef.MayFail]
  constructor
  · rintro (⟨x, hx, hf⟩ | ⟨x, hx, hf⟩)
    · exact ⟨hd, x, .inl hx, hf⟩
    · exact ⟨hd, x, .inr hx, hf⟩
  · rintro ⟨-, x, hx | hx, hf⟩
    · exact .inl ⟨x, hx, hf⟩
    · exact .inr ⟨x, hx, hf⟩

theorem hasUserMove_iff {d : TypeDef} (hd : d.IsAuthored) : hasUserMove d = true ↔ d.IsUserMovable := by
  rw [hasUserMove, Bool.or_eq_true, TypeDef.IsUserMovable]
  exact (and_iff_right hd).symm

theorem Faithful.reportFailing {c : Classification} (h : Faithful t c) {id : TypeId} {d : TypeDef}
    (hd : t.get? id = some d) (hauth : d.IsAuthored) : Faithful t (c.reportFailing d) := by
  by_cases hnil : failingMoves d = []
  · rwa [Classification.reportFailing, hnil]
  · have hfault : t.Faulty id := by
      rw [TypeTable.faulty_iff hd, ← failingMoves_iff hauth]
      left
      simpa using hnil
    refine ⟨?_, fun _ => ⟨id, TypeTable.contains_of_get? hd, hfault⟩⟩
    rw [facts_reportFailing]
    exact h.exact

theorem reachesSome_leaf {p : TypeDef → Prop} {id : TypeId} {d : TypeDef} (hd : t.get? id = some d)
    (hk : d.kind ≠ .struct) : t.ReachesSome p id ↔ p d := by
  rw [TypeTable.reachesSome_iff hd]
  simp [hk]

theorem faulty_leaf {id : TypeId} {d : TypeDef} (hd : t.get? id = some d) (hk : d.kind ≠ .struct) :
    t.Faulty id ↔ d.MayFail := by
  rw [TypeTable.faulty_iff hd]
  simp [hk]

theorem exact_ordinary {id : TypeId} {d : TypeDef} (hd : t.get? id = some d) (hfit : d.FitsKind)
    (hauth : ¬ d.IsAuthored) : TypeFacts.ordinary.Exact t id := by
  have hk : d.kind ≠ .struct := fun hk => hauth (.inl hk)
  have hplain : ¬ t.Owning id := by
    intro h
    rw [TypeTable.Owning, reachesSome_leaf hd hk, TypeDef.HasDestructor, hfit.ops hauth] at h
    cases h
  refine ⟨?_, fun _ => ?_, fun _ => ?_, fun _ => rfl, ?_⟩
  · rw [faulty_leaf hd hk, TypeDef.MayFail]
    simp [hauth, TypeFacts.ordinary]
  · rw [TypeTable.Movable, reachesSome_leaf hd hk, TypeDef.IsUserMovable]
    simp [hauth, TypeFacts.ordinary]
  · simp [hplain, TypeFacts.ordinary]
  · intro h
    cases h

theorem faithful_classifyForeign {id : TypeId} {d : TypeDef} (hd : t.get? id = some d)
    (hk : d.kind = .foreign) {c : Classification} (h : Faithful t c) :
    Faithful t (classifyForeign d c).1 := by
  have hend := h.reportFailing hd (.inr hk)
  simp only [classifyForeign]
  split
  · exact hend
  · split <;> exact hend

theorem exact_classifyForeign {id : TypeId} {d : TypeDef} (hd : t.get? id = some d) (hfit : d.FitsKind)
    (hk : d.kind = .foreign) (c : Classification) : (classifyForeign d c).2.Exact t id := by
  have hauth : d.IsAuthored := .inr hk
  have hstruct : d.kind ≠ .struct := by simp [hk]
  have hfault : t.Faulty id ↔ (!(failingMoves d).isEmpty) = true := by
    rw [faulty_leaf hd hstruct, failingMoves_iff hauth]
  have hmove : t.Movable id ↔ hasUserMove d = true := by
    rw [TypeTable.Movable, reachesSome_leaf hd hstruct, hasUserMove_iff hauth]
  have hown : t.Owning id ↔ d.ops.destructor = true := reachesSome_leaf hd hstruct
  simp only [classifyForeign]
  split
  next hfail => exact ⟨by simp [hfault, hfail], fun h => (h (hfault.2 hfail)).elim,
      fun h => (h (hfault.2 hfail)).elim, fun _ => rfl, by simp⟩
  next hfail =>
    split
    next hu => exact ⟨by simp [hfault, hfail], fun _ => by simpa [hmove] using hu,
        fun _ => hown.symm, fun _ => rfl, by simp⟩
    next hu =>
      refine ⟨by simp [hfault, hfail], fun _ => by simpa [hmove] using hu, fun _ => hown.symm,
        by simp, fun _ => ⟨d, [], hd, rfl, ?_⟩⟩
      rw [hfit.fields hstruct]
      exact .nil

/-- What the fold over the fields of a struct finds, said of what their types reach. -/
structure Folded (t : TypeTable) (fields : List Field) (s : FieldSummary)
    (r : Classification × FieldSummary) : Prop where
  faithful : Faithful t r.1
  violating : r.2.violating = true ↔ s.violating = true ∨ ∃ f ∈ fields, t.Faulty f.type
  capable : (∀ f ∈ fields, ¬ t.Faulty f.type) →
    (r.2.anyCapable = true ↔ s.anyCapable = true ∨ ∃ f ∈ fields, t.Movable f.type)
  destroy : (∀ f ∈ fields, ¬ t.Faulty f.type) →
    (r.2.needsDestroy = true ↔ s.needsDestroy = true ∨ ∃ f ∈ fields, t.Owning f.type)
  known : (∀ f ∈ fields, ¬ t.Faulty f.type) → ∀ f ∈ fields, f.type ∈ r.1.facts.keys

theorem Folded.cons_faulty {f : Field} {fields : List Field} {s s' : FieldSummary}
    {r : Classification × FieldSummary} (h : Folded t fields s' r) (hf : t.Faulty f.type)
    (hs : s'.violating = true) : Folded t (f :: fields) s r := by
  have hnone : ¬ ∀ g ∈ f :: fields, ¬ t.Faulty g.type := fun h => h f List.mem_cons_self hf
  refine ⟨h.faithful, ?_, fun h => (hnone h).elim, fun h => (hnone h).elim, fun h => (hnone h).elim⟩
  rw [h.violating]
  simp [hs, hf]

theorem Folded.cons_exact {f : Field} {fields : List Field} {s : FieldSummary} {x : TypeFacts}
    {r : Classification × FieldSummary} (h : Folded t fields (s.add x) r) (hx : x.Exact t f.type)
    (hf : ¬ t.Faulty f.type) (hknown : f.type ∈ r.1.facts.keys) : Folded t (f :: fields) s r := by
  have hrest : (∀ g ∈ f :: fields, ¬ t.Faulty g.type) → ∀ g ∈ fields, ¬ t.Faulty g.type :=
    fun h g hg => h g (List.mem_cons_of_mem f hg)
  refine ⟨h.faithful, ?_, fun hall => ?_, fun hall => ?_, fun hall => ?_⟩
  · rw [h.violating]
    simp [FieldSummary.add, hx.violating, or_assoc]
  · rw [h.capable (hrest hall)]
    simp [FieldSummary.add, hx.capable hf, or_assoc]
  · rw [h.destroy (hrest hall)]
    simp [FieldSummary.add, hx.destroy hf, or_assoc]
  · intro g hg
    apply (List.mem_cons.1 hg).elim
    · rintro rfl
      exact hknown
    · exact h.known (hrest hall) g

theorem folded_foldFields {d : TypeDef} {busy : List TypeId}
    {classify : TypeId → Classification → Classification × TypeFacts}
    (hkeep : ∀ id c x, x ∈ c.facts.keys → x ∈ (classify id c).1.facts.keys) {fields : List Field}
    (hclassify : ∀ f ∈ fields, f.type ∉ busy → ∀ c, Faithful t c →
      Faithful t (classify f.type c).1 ∧ (classify f.type c).2.Exact t f.type ∧
        f.type ∈ (classify f.type c).1.facts.keys)
    (hbusy : ∀ f ∈ fields, f.type ∈ busy → t.Faulty f.type)
    (hfields : ∀ f ∈ fields, t.contains f.type = true) {c : Classification} (h : Faithful t c)
    (s : FieldSummary) : Folded t fields s (foldFields t d busy classify fields c s) := by
  induction fields generalizing c s with
  | nil => exact ⟨h, by simp [foldFields], by simp [foldFields], by simp [foldFields], by simp⟩
  | cons f fields ih =>
    have hmem : f ∈ f :: fields := List.mem_cons_self
    have hid := hfields f hmem
    have hrest := @ih (fun g hg => hclassify g (List.mem_cons_of_mem f hg))
      (fun g hg => hbusy g (List.mem_cons_of_mem f hg)) fun g hg => hfields g (List.mem_cons_of_mem f hg)
    by_cases hb : f.type ∈ busy
    · rw [foldFields_busy hb]
      have hfault := hbusy f hmem hb
      exact (hrest (h.report hid hfault _ _ _) _).cons_faulty hfault rfl
    · obtain ⟨hc, hx, hkey⟩ := hclassify f hmem hb c h
      cases hv : (classify f.type c).2.violating with
      | true =>
        rw [foldFields_refuse hb hv]
        have hfault := hx.violating.1 hv
        apply (hrest (hc.report hid hfault _ _ _) _).cons_faulty hfault
        simp [FieldSummary.add, hv]
      | false =>
        rw [foldFields_accept hb hv]
        have hfault : ¬ t.Faulty f.type := by simp [← hx.violating, hv]
        exact (hrest hc _).cons_exact hx hfault (mem_keys_foldFields (fun id c => hkeep id c _) hkey)

theorem Faithful.isCapable_iff {c : Classification} (h : Faithful t c) {id : TypeId}
    (hkey : id ∈ c.facts.keys) (hf : ¬ t.Faulty id) : c.isCapable id = true ↔ t.Movable id := by
  rw [← OrderedMap.contains_iff, OrderedMap.contains, Option.isSome_iff_exists] at hkey
  obtain ⟨x, hx⟩ := hkey
  rw [isCapable, hx]
  exact (h.exact id x hx).capable hf

theorem faithful_concludeStruct {id : TypeId} {d : TypeDef} (hd : t.get? id = some d)
    (hk : d.kind = .struct) {r : Classification × FieldSummary}
    (h : Folded t d.fields { needsDestroy := d.ops.destructor } r) :
    Faithful t (concludeStruct d r.1 r.2).1 ∧ (concludeStruct d r.1 r.2).2.Exact t id := by
  have hauth : d.IsAuthored := .inl hk
  have hfault : t.Faulty id ↔ (r.2.violating || !(failingMoves d).isEmpty) = true := by
    rw [TypeTable.faulty_iff hd, Bool.or_eq_true, h.violating, failingMoves_iff hauth]
    simp [hk, or_comm]
  have hend := h.faithful.reportFailing hd hauth
  simp only [concludeStruct]
  split
  next hv => exact ⟨hend, by simp [hfault, hv], fun h => (h (hfault.2 hv)).elim,
      fun h => (h (hfault.2 hv)).elim, fun _ => rfl, by simp⟩
  next hv =>
    have hsound : ∀ f ∈ d.fields, ¬ t.Faulty f.type := by
      intro f hf hff
      apply hv
      rw [Bool.or_eq_true, h.violating]
      exact .inl (.inr ⟨f, hf, hff⟩)
    have hmove : t.Movable id ↔ (hasUserMove d || r.2.anyCapable) = true := by
      rw [TypeTable.Movable, TypeTable.reachesSome_iff hd, Bool.or_eq_true, h.capable hsound,
        hasUserMove_iff hauth]
      simp [hk, TypeTable.Movable]
    have hown : r.2.needsDestroy = true ↔ t.Owning id := by
      rw [TypeTable.Owning, TypeTable.reachesSome_iff hd, h.destroy hsound]
      simp [hk, TypeTable.Owning, TypeDef.HasDestructor]
    split
    next hu => exact ⟨hend, by simp [hfault, hv], fun _ => by simpa [hmove] using hu, fun _ => hown,
        fun _ => rfl, by simp⟩
    next hu =>
      have hmovable : t.Movable id := hmove.2 (by simpa only [Bool.not_eq_true', Bool.not_eq_false] using hu)
      refine ⟨hend, by simp [hfault, hv], fun _ => iff_of_true rfl hmovable, fun _ => hown, by simp,
        fun _ => ⟨d, _, hd, rfl, ?_⟩⟩
      rw [List.forall₂_map_right_iff, List.forall₂_same]
      intro f hf
      have hcap : (r.1.reportFailing d).isCapable f.type = true ↔ t.Movable f.type := by
        apply hend.isCapable_iff _ (hsound f hf)
        rw [facts_reportFailing]
        exact h.known hsound f hf
      refine ⟨rfl, rfl, ?_⟩
      rw [← hcap]
      cases (r.1.reportFailing d).isCapable f.type <;> simp

/-- The types being classified are a run of structs each of which leads to `id`. -/
structure Busy (t : TypeTable) (busy : List TypeId) (id : TypeId) : Prop where
  nodup : (id :: busy).Nodup
  known : ∀ b ∈ id :: busy, t.contains b = true
  leads : ∀ b ∈ busy, t.Reaches b id

theorem Busy.start {id : TypeId} (h : t.contains id = true) : Busy t [] id :=
  ⟨by simp, by simpa using h, by simp⟩

theorem Busy.next {busy : List TypeId} {id b : TypeId} (h : Busy t busy id) (hb : t.contains b = true)
    (hstep : t.Holds id b) (hnew : b ∉ id :: busy) : Busy t (id :: busy) b := by
  refine ⟨List.nodup_cons.2 ⟨hnew, h.nodup⟩, ?_, ?_⟩
  · intro x hx
    apply (List.mem_cons.1 hx).elim _ (h.known x)
    rintro rfl
    exact hb
  · intro x hx
    apply (List.mem_cons.1 hx).elim
    · rintro rfl
      exact .single hstep
    · intro hx
      exact (h.leads x hx).tail hstep

theorem Busy.length_lt {busy : List TypeId} {id : TypeId} (h : Busy t busy id) : busy.length < t.size := by
  have hsub : id :: busy ⊆ t.ids := fun b hb => TypeTable.mem_ids.2 (h.known b hb)
  have hlen := (List.subperm_of_subset h.nodup hsub).length_le
  simp only [List.length_cons, TypeTable.ids, List.length_map, List.length_range] at hlen
  omega

theorem faithful_classify (ht : t.Built) {depth : ℕ} {busy : List TypeId} {id : TypeId}
    {c : Classification} (hb : Busy t busy id) (hdepth : t.size ≤ depth + busy.length)
    (h : Faithful t c) :
    Faithful t (classify t depth busy id c).1 ∧ (classify t depth busy id c).2.Exact t id := by
  induction depth generalizing busy id c with
  | zero =>
    have hlen := hb.length_lt
    omega
  | succ depth ih =>
    have hlen := hb.length_lt
    have keep : ∀ {r : Classification × TypeFacts}, Faithful t r.1 ∧ r.2.Exact t id →
        Faithful t { r.1 with facts := r.1.facts.put id r.2 } ∧ r.2.Exact t id :=
      fun hr => ⟨hr.1.put hr.2, hr.2⟩
    obtain ⟨d, hd⟩ := Option.isSome_iff_exists.1 (hb.known id List.mem_cons_self)
    have hfit := ht.fitsKind d (TypeTable.mem_defs_of_get? hd)
    rw [classify]
    split
    next x hx => exact ⟨h, h.exact id x hx⟩
    next =>
      apply keep
      simp only [hd]
      split
      next hk =>
        have hholds : ∀ f ∈ d.fields, t.Holds id f.type := fun f hf => ⟨d, hd, hk, f, hf, rfl⟩
        have hfields : ∀ f ∈ d.fields, t.contains f.type = true :=
          fun f hf => ht.fieldsRegistered.contains_of_holds (hholds f hf)
        refine faithful_concludeStruct hd hk (folded_foldFields (fun _ _ _ => mem_keys_classify) ?_ ?_
          hfields h _)
        · intro f hf hnew c hc
          have hnext := hb.next (hfields f hf) (hholds f hf) hnew
          have hpos : 0 < depth := by
            have := hnext.length_lt
            simp only [List.length_cons] at this
            omega
          have hrec := ih hnext (by simp only [List.length_cons]; omega) hc
          refine ⟨hrec.1, hrec.2, ?_⟩
          obtain ⟨n, rfl⟩ := Nat.exists_eq_add_of_lt hpos
          exact mem_keys_classify_self
        · intro f hf hback
          apply TypeTable.faulty_of_back (hholds f hf)
          apply (List.mem_cons.1 hback).elim _ (hb.leads f.type)
          intro hself
          rw [hself]
      next hk => exact ⟨faithful_classifyForeign hd hk h, exact_classifyForeign hd hfit hk c⟩
      next hstruct hforeign =>
        exact ⟨h, exact_ordinary hd hfit fun hauth => hauth.elim hstruct hforeign⟩

theorem reported_build (t : TypeTable) :
    Reported { facts := (TypeModel.build t).facts, diagnostics := (TypeModel.build t).diagnostics } := by
  have main : ∀ (ids : List TypeId) (c : Classification), c.Reported →
      (ids.foldl (fun c id => (classify t (t.size + 1) [] id c).1) c).Reported := by
    intro ids
    induction ids with
    | nil => intro c h; exact h
    | cons id ids ih => intro c h; exact ih _ (reports_classify h).reported
  exact main t.ids {} ⟨by simp, fun _ _ hx => (Option.some_ne_none _ hx.symm).elim⟩

theorem faithful_build (ht : t.Built) :
    Faithful t { facts := (TypeModel.build t).facts, diagnostics := (TypeModel.build t).diagnostics } := by
  have main : ∀ (ids : List TypeId) (c : Classification), (∀ id ∈ ids, t.contains id = true) →
      Faithful t c → Faithful t (ids.foldl (fun c id => (classify t (t.size + 1) [] id c).1) c) := by
    intro ids
    induction ids with
    | nil => intro c _ h; exact h
    | cons id ids ih =>
      intro c hids h
      apply ih _ fun x hx => hids x (List.mem_cons_of_mem id hx)
      exact (faithful_classify ht (.start (hids id List.mem_cons_self)) (by simp) h).1
  apply main t.ids {} (fun _ => TypeTable.mem_ids.1)
  exact ⟨fun _ _ hx => (Option.some_ne_none _ hx.symm).elim, by simp⟩

end Classification

namespace TypeModel

theorem factsOf_eq_ok {m : TypeModel} {id : TypeId} {x : TypeFacts} :
    m.factsOf id = .ok x ↔ m.facts.get? id = some x := by
  rw [factsOf]
  cases m.facts.get? id <;> simp

/-- A violating type was reported when the types were classified. -/
theorem hasErrors_of_isViolating {t : TypeTable} {id : TypeId}
    (h : (build t).isViolating id = .ok true) : hasErrors (build t).diagnostics = true := by
  obtain ⟨x, hx, hv⟩ := bind_eq_ok.1 h
  rw [pure_eq_ok] at hv
  have hreported := Classification.reported_build t
  obtain ⟨e, he⟩ := List.exists_mem_of_ne_nil _ (hreported.violating id x (factsOf_eq_ok.1 hx) hv)
  have herr : e.isError = true := by simp [Diagnostic.isError, hreported.errors e he]
  exact List.any_eq_true.2 ⟨e, he, herr⟩

end TypeModel
end MovePlan
