import MovePlan.Proofs.Types.Classified

set_option autoImplicit false

namespace MovePlan

def UserOps.SameMoves (o o' : UserOps) : Prop :=
  o'.moveCtor.map UserMove.canFail = o.moveCtor.map UserMove.canFail ∧
    o'.moveAssign.map UserMove.canFail = o.moveAssign.map UserMove.canFail ∧
    o'.destructor = o.destructor

def Field.rename (σ : TypeId → TypeId) (f : Field) : Field := { f with type := σ f.type }

def FieldStep.rename (σ : TypeId → TypeId) (s : FieldStep) : FieldStep := { s with type := σ s.type }

def MoveOp.rename (σ : TypeId → TypeId) (o : MoveOp) : MoveOp :=
  { o with steps := o.steps.map (FieldStep.rename σ) }

def MoveOps.rename (σ : TypeId → TypeId) (o : MoveOps) : MoveOps where
  ctor := o.ctor.rename σ
  assign := o.assign.rename σ

/-- The definition of `id` in `t` is the definition of `σ id` in `t'`, where it may be written at
another place of the source and under another name. -/
structure TypeTable.Renamed (t : TypeTable) (σ : TypeId → TypeId) (t' : TypeTable) : Prop where
  injective : ∀ a b, t.contains a = true → t.contains b = true → σ a = σ b → a = b
  get? : ∀ id d, t.get? id = some d → ∃ d', t'.get? (σ id) = some d' ∧ d'.kind = d.kind ∧
    d.ops.SameMoves d'.ops ∧ d'.fields = d.fields.map (Field.rename σ)

theorem UserOps.SameMoves.complete_rename {o o' : UserOps} (h : o.SameMoves o') (σ : TypeId → TypeId)
    (steps : List FieldStep) :
    o'.complete (steps.map (FieldStep.rename σ)) = (o.complete steps).rename σ := by
  have half : ∀ (m m' : Option UserMove), m'.map UserMove.canFail = m.map UserMove.canFail →
      (m'.map UserMove.toOp).getD
          { origin := .synthesized, steps := steps.map (FieldStep.rename σ) } =
        ((m.map UserMove.toOp).getD { origin := .synthesized, steps := steps }).rename σ := by
    intro m m' hm
    cases m <;> cases m' <;> simp_all [UserMove.toOp, MoveOp.rename]
  rw [complete, complete, MoveOps.rename, half _ _ h.1, half _ _ h.2.1]

/-- A property of definitions that neither names nor numbers of types enter. -/
def TypeDef.Invariant (p : TypeDef → Prop) : Prop :=
  ∀ d d' : TypeDef, d'.kind = d.kind → d.ops.SameMoves d'.ops → p d → p d'

theorem UserOps.SameMoves.symm {o o' : UserOps} (h : o.SameMoves o') : o'.SameMoves o :=
  ⟨h.1.symm, h.2.1.symm, h.2.2.symm⟩

theorem TypeDef.IsAuthored.of_kind {d d' : TypeDef} (hk : d'.kind = d.kind) (h : d.IsAuthored) :
    d'.IsAuthored := by
  rwa [IsAuthored, hk]

theorem TypeDef.invariant_isUserMovable : TypeDef.Invariant TypeDef.IsUserMovable := by
  intro d d' hk ho h
  refine ⟨h.1.of_kind hk, ?_⟩
  have half : ∀ (m m' : Option UserMove), m'.map UserMove.canFail = m.map UserMove.canFail →
      m.isSome = m'.isSome := by
    intro m m' hm
    cases m <;> cases m' <;> simp_all
  rw [← half _ _ ho.1, ← half _ _ ho.2.1]
  exact h.2

theorem TypeDef.invariant_mayFail : TypeDef.Invariant TypeDef.MayFail := by
  intro d d' hk ho h
  have half : ∀ (m m' : Option UserMove), m'.map UserMove.canFail = m.map UserMove.canFail →
      ∀ x, m = some x → x.canFail = true → ∃ y, m' = some y ∧ y.canFail = true := by
    rintro m m' hm x rfl hx
    cases m' <;> simp_all
  obtain ⟨hauth, x, hx, hf⟩ := h
  refine ⟨hauth.of_kind hk, ?_⟩
  cases hx with
  | inl hx =>
    obtain ⟨y, hy, hf⟩ := half _ _ ho.1 x hx hf
    exact ⟨y, .inl hy, hf⟩
  | inr hx =>
    obtain ⟨y, hy, hf⟩ := half _ _ ho.2.1 x hx hf
    exact ⟨y, .inr hy, hf⟩

theorem TypeDef.invariant_hasDestructor : TypeDef.Invariant TypeDef.HasDestructor := by
  intro d d' _ ho h
  rwa [HasDestructor, ho.2.2]

namespace TypeTable.Renamed
variable {σ : TypeId → TypeId} {t t' : TypeTable}

theorem holds (h : t.Renamed σ t') {a b : TypeId} (hab : t.Holds a b) : t'.Holds (σ a) (σ b) := by
  obtain ⟨d, hd, hk, f, hf, rfl⟩ := hab
  obtain ⟨d', hd', hk', -, hfields⟩ := h.get? a d hd
  refine ⟨d', hd', hk'.trans hk, f.rename σ, ?_, rfl⟩
  rw [hfields]
  exact List.mem_map_of_mem hf

theorem of_holds (h : t.Renamed σ t') {a v : TypeId} (ha : t.contains a = true)
    (hav : t'.Holds (σ a) v) : ∃ b, t.Holds a b ∧ σ b = v := by
  obtain ⟨d, hd⟩ := Option.isSome_iff_exists.1 ha
  obtain ⟨d', hd', hk, -, hfields⟩ := h.get? a d hd
  obtain ⟨hstruct, f', hf', hv⟩ := (holds_iff hd').1 hav
  rw [hfields] at hf'
  obtain ⟨f, hf, rfl⟩ := List.mem_map.1 hf'
  exact ⟨f.type, ⟨d, hd, hk ▸ hstruct, f, hf, rfl⟩, hv⟩

theorem reaches (h : t.Renamed σ t') {a b : TypeId} (hab : t.Reaches a b) : t'.Reaches (σ a) (σ b) :=
  hab.lift σ fun _ _ => h.holds

theorem of_reaches (h : t.Renamed σ t') (ht : t.FieldsRegistered) {a v : TypeId}
    (ha : t.contains a = true) (hav : t'.Reaches (σ a) v) :
    ∃ b, t.contains b = true ∧ t.Reaches a b ∧ σ b = v := by
  induction hav with
  | refl => exact ⟨a, ha, .refl, rfl⟩
  | tail _ hstep ih =>
    obtain ⟨b, hb, hab, rfl⟩ := ih
    obtain ⟨c, hbc, hc⟩ := h.of_holds hb hstep
    exact ⟨c, ht.contains_of_holds hbc, hab.tail hbc, hc⟩

theorem onCycle_iff (h : t.Renamed σ t') (ht : t.FieldsRegistered) {a : TypeId}
    (ha : t.contains a = true) : t'.OnCycle (σ a) ↔ t.OnCycle a := by
  constructor
  · intro hcycle
    obtain ⟨v, hav, hva⟩ := Relation.TransGen.tail'_iff.1 hcycle
    obtain ⟨b, hb, hab, rfl⟩ := h.of_reaches ht ha hav
    obtain ⟨c, hbc, hc⟩ := h.of_holds hb hva
    have hca : c = a := h.injective c a (ht.contains_of_holds hbc) ha hc
    exact .tail' hab (hca ▸ hbc)
  · intro hcycle
    exact hcycle.lift σ fun _ _ => h.holds

theorem reachesSome_iff (h : t.Renamed σ t') (ht : t.FieldsRegistered) {p : TypeDef → Prop}
    (hp : TypeDef.Invariant p) {a : TypeId} (ha : t.contains a = true) :
    t'.ReachesSome p (σ a) ↔ t.ReachesSome p a := by
  constructor
  · rintro ⟨v, d', hav, hd', hpd⟩
    obtain ⟨b, hb, hab, rfl⟩ := h.of_reaches ht ha hav
    obtain ⟨d, hd⟩ := Option.isSome_iff_exists.1 hb
    obtain ⟨x, hx, hk, ho, -⟩ := h.get? b d hd
    have hxd : x = d' := by simpa [hx] using hd'
    subst hxd
    exact ⟨b, d, hab, hd, hp x d hk.symm ho.symm hpd⟩
  · rintro ⟨b, d, hab, hd, hpd⟩
    obtain ⟨d', hd', hk, ho, -⟩ := h.get? b d hd
    exact ⟨σ b, d', h.reaches hab, hd', hp d d' hk ho hpd⟩

theorem faulty_iff (h : t.Renamed σ t') (ht : t.FieldsRegistered) {a : TypeId}
    (ha : t.contains a = true) : t'.Faulty (σ a) ↔ t.Faulty a := by
  rw [Faulty, Faulty, h.reachesSome_iff ht TypeDef.invariant_mayFail ha]
  apply or_congr_right
  constructor
  · rintro ⟨v, hav, hcycle⟩
    obtain ⟨b, hb, hab, rfl⟩ := h.of_reaches ht ha hav
    exact ⟨b, hab, (h.onCycle_iff ht hb).1 hcycle⟩
  · rintro ⟨b, hab, hcycle⟩
    exact ⟨σ b, h.reaches hab, hcycle.lift σ fun _ _ => h.holds⟩

end TypeTable.Renamed

namespace TypeModel
variable {t : TypeTable}

/-- What the model of a table says of a type that is registered there. -/
structure Describes (t : TypeTable) (id : TypeId) : Prop where
  violating : ∃ b, (build t).isViolating id = .ok b ∧ (b = true ↔ t.Faulty id)
  capable : (build t).isViolating id = .ok false →
    ∃ b, (build t).isMoveCapable id = .ok b ∧ (b = true ↔ t.Movable id)
  destroy : (build t).isViolating id = .ok false →
    ∃ b, (build t).needsDestroy id = .ok b ∧ (b = true ↔ t.Owning id)
  ops : (build t).isViolating id = .ok false →
    ∃ ops, (build t).moveOps id = .ok ops ∧ (ops.isSome = true ↔ t.Movable id) ∧
      ∀ o, ops = some o → (build t).synthesize id = .ok o
  /-- The steps stand in declaration order. -/
  synthesized : ∃ d steps, t.get? id = some d ∧
    (build t).synthesize id = .ok (d.ops.complete steps) ∧
      List.Forall₂ (FieldStep.Transfers fun x => (build t).isMoveCapable x = .ok true) d.fields steps

/-- The type `σ id` of `t'` is to the one model what `id` is to the other. -/
structure Agrees (σ : TypeId → TypeId) (t t' : TypeTable) (id : TypeId) : Prop where
  violating : (build t').isViolating (σ id) = (build t).isViolating id
  capable : (build t).isViolating id = .ok false →
    (build t').isMoveCapable (σ id) = (build t).isMoveCapable id
  destroy : (build t).isViolating id = .ok false →
    (build t').needsDestroy (σ id) = (build t).needsDestroy id
  ops : (build t).isViolating id = .ok false →
    ∃ ops, (build t).moveOps id = .ok ops ∧
      (build t').moveOps (σ id) = .ok (ops.map (MoveOps.rename σ))

theorem exists_exact (ht : t.Built) {id : TypeId} (hid : t.contains id = true) :
    ∃ x, (build t).factsOf id = .ok x ∧ x.Exact t id := by
  obtain ⟨x, hx⟩ := exists_factsOf hid
  exact ⟨x, hx, (Classification.faithful_build ht).exact id x (factsOf_eq_ok.1 hx)⟩

section Facts
variable {m : TypeModel} {id : TypeId} {x : TypeFacts}

theorem isViolating_of_factsOf (h : m.factsOf id = .ok x) : m.isViolating id = .ok x.violating := by
  rw [isViolating, h]
  rfl

theorem isMoveCapable_of_factsOf (h : m.factsOf id = .ok x) : m.isMoveCapable id = .ok x.moveCapable := by
  rw [isMoveCapable, h]
  rfl

theorem needsDestroy_of_factsOf (h : m.factsOf id = .ok x) : m.needsDestroy id = .ok x.needsDestroy := by
  rw [needsDestroy, h]
  rfl

theorem moveOps_of_factsOf (h : m.factsOf id = .ok x) : m.moveOps id = .ok x.ops := by
  rw [moveOps, h]
  rfl

end Facts

theorem exists_fieldSteps {ε : Type} {capable : TypeId → Except ε Bool} {fields : List Field}
    (h : ∀ f ∈ fields, ∃ b, capable f.type = .ok b) :
    ∃ steps, fieldSteps capable fields = .ok steps ∧
      List.Forall₂ (FieldStep.Transfers fun x => capable x = .ok true) fields steps := by
  induction fields with
  | nil => exact ⟨[], rfl, .nil⟩
  | cons f fields ih =>
    obtain ⟨b, hb⟩ := h f List.mem_cons_self
    obtain ⟨steps, hsteps, hall⟩ := ih fun g hg => h g (List.mem_cons_of_mem f hg)
    refine ⟨⟨f.name, f.type, if b then .move else .bitcopy⟩ :: steps, ?_, .cons ⟨rfl, rfl, ?_⟩ hall⟩
    · rw [fieldSteps, hb, hsteps]
      rfl
    · change _ ↔ capable f.type = .ok true
      rw [hb]
      cases b <;> simp

theorem exists_synthesize (ht : t.FieldsRegistered) {id : TypeId} {d : TypeDef}
    (hd : t.get? id = some d) :
    ∃ steps, (build t).synthesize id = .ok (d.ops.complete steps) ∧
      List.Forall₂ (FieldStep.Transfers fun x => (build t).isMoveCapable x = .ok true) d.fields steps := by
  obtain ⟨steps, hsteps, hall⟩ := exists_fieldSteps fun f hf =>
    exists_isMoveCapable (ht d (TypeTable.mem_defs_of_get? hd) f hf)
  refine ⟨steps, ?_, hall⟩
  have hget : t.get id = .ok d := TypeTable.get_eq_ok.2 hd
  rw [synthesize, TypeTable.synthesize, show (build t).table = t from rfl, hget]
  exact congrArg (fun r => (do let s ← r; return d.ops.complete s : Except TypeError MoveOps)) hsteps

theorem capable_field_iff (ht : t.Built) {id : TypeId} {d : TypeDef} (hd : t.get? id = some d)
    (hid : ¬ t.Faulty id) {f : Field} (hf : f ∈ d.fields) :
    (build t).isMoveCapable f.type = .ok true ↔ t.Movable f.type := by
  have hk : d.kind = .struct := by
    by_contra hk
    rw [(ht.fitsKind d (TypeTable.mem_defs_of_get? hd)).fields hk] at hf
    simp at hf
  have hsound : ¬ t.Faulty f.type := by
    intro h
    exact hid ((TypeTable.faulty_iff hd).2 (.inr ⟨hk, f, hf, h⟩))
  obtain ⟨x, hx, hexact⟩ := exists_exact ht (ht.fieldsRegistered d (TypeTable.mem_defs_of_get? hd) f hf)
  rw [isMoveCapable_of_factsOf hx, Except.ok.injEq]
  exact hexact.capable hsound

theorem describes (ht : t.Built) {id : TypeId} (hid : t.contains id = true) : Describes t id := by
  obtain ⟨x, hx, hexact⟩ := exists_exact ht hid
  obtain ⟨d, hd⟩ := Option.isSome_iff_exists.1 hid
  obtain ⟨steps, hsyn, hsteps⟩ := exists_synthesize ht.fieldsRegistered hd
  have hsound : (build t).isViolating id = .ok false → ¬ t.Faulty id := by
    intro h
    rw [isViolating_of_factsOf hx, Except.ok.injEq] at h
    simp [← hexact.violating, h]
  refine ⟨⟨_, isViolating_of_factsOf hx, hexact.violating⟩,
    fun h => ⟨_, isMoveCapable_of_factsOf hx, hexact.capable (hsound h)⟩,
    fun h => ⟨_, needsDestroy_of_factsOf hx, hexact.destroy (hsound h)⟩,
    fun h => ⟨_, moveOps_of_factsOf hx, ?_, ?_⟩, d, steps, hd, hsyn, hsteps⟩
  · rw [← hexact.capable (hsound h)]
    cases hc : x.moveCapable with
    | true =>
      obtain ⟨_, _, _, hops, _⟩ := hexact.present hc
      simp [hops]
    | false => simp [hexact.absent hc]
  · intro o ho
    have hc : x.moveCapable = true := by
      by_contra hc
      rw [hexact.absent (by simpa using hc)] at ho
      cases ho
    obtain ⟨d', steps', hd', hops, hall⟩ := hexact.present hc
    have hdd : d' = d := by simpa [hd'] using hd
    subst hdd
    have hsteps' : List.Forall₂ (FieldStep.Transfers t.Movable) d'.fields steps := by
      apply forall₂_imp_of_mem hsteps
      intro f hf s hfs
      exact ⟨hfs.1, hfs.2.1, hfs.2.2.trans (capable_field_iff ht hd (hsound h) hf)⟩
    have hsame : o = d'.ops.complete steps := by
      rw [← FieldStep.Transfers.unique hall hsteps']
      simpa [hops] using ho.symm
    rw [hsyn, hsame]

theorem transfers_rename {t' : TypeTable} {σ : TypeId → TypeId} (ht : t.FieldsRegistered)
    (h : t.Renamed σ t') {id : TypeId} {d : TypeDef} (hd : t.get? id = some d) {steps : List FieldStep}
    (hsteps : List.Forall₂ (FieldStep.Transfers t.Movable) d.fields steps) :
    List.Forall₂ (FieldStep.Transfers t'.Movable) (d.fields.map (Field.rename σ))
      (steps.map (FieldStep.rename σ)) := by
  rw [List.forall₂_map_left_iff, List.forall₂_map_right_iff]
  apply forall₂_imp_of_mem hsteps
  rintro f hf s ⟨hname, htype, hmode⟩
  have hfield := ht d (TypeTable.mem_defs_of_get? hd) f hf
  refine ⟨hname, congrArg σ htype, ?_⟩
  exact hmode.trans (h.reachesSome_iff ht TypeDef.invariant_isUserMovable hfield).symm

theorem agrees {t' : TypeTable} {σ : TypeId → TypeId} (ht : t.Built) (ht' : t'.Built)
    (h : t.Renamed σ t') {id : TypeId} (hid : t.contains id = true) : Agrees σ t t' id := by
  have hfields := ht.fieldsRegistered
  obtain ⟨d, hd⟩ := Option.isSome_iff_exists.1 hid
  obtain ⟨d', hd', -, hmoves, hrenamed⟩ := h.get? id d hd
  obtain ⟨x, hx, hexact⟩ := exists_exact ht hid
  obtain ⟨x', hx', hexact'⟩ := exists_exact ht' (TypeTable.contains_of_get? hd')
  have hfault := h.faulty_iff hfields hid
  have hsound : (build t).isViolating id = .ok false → ¬ t.Faulty id := by
    intro hv
    rw [isViolating_of_factsOf hx, Except.ok.injEq] at hv
    simp [← hexact.violating, hv]
  have hcapable : ¬ t.Faulty id → x'.moveCapable = x.moveCapable := by
    intro hf
    rw [Bool.eq_iff_iff, hexact.capable hf, hexact'.capable (hfault.not.2 hf)]
    exact h.reachesSome_iff hfields TypeDef.invariant_isUserMovable hid
  constructor
  · rw [isViolating_of_factsOf hx, isViolating_of_factsOf hx', Except.ok.injEq, Bool.eq_iff_iff,
      hexact.violating, hexact'.violating, hfault]
  · intro hv
    rw [isMoveCapable_of_factsOf hx, isMoveCapable_of_factsOf hx', hcapable (hsound hv)]
  · intro hv
    rw [needsDestroy_of_factsOf hx, needsDestroy_of_factsOf hx', Except.ok.injEq, Bool.eq_iff_iff,
      hexact.destroy (hsound hv), hexact'.destroy (hfault.not.2 (hsound hv))]
    exact h.reachesSome_iff hfields TypeDef.invariant_hasDestructor hid
  · intro hv
    refine ⟨x.ops, moveOps_of_factsOf hx, ?_⟩
    rw [moveOps_of_factsOf hx', Except.ok.injEq]
    have hcap := hcapable (hsound hv)
    cases hc : x.moveCapable with
    | false => rw [hexact.absent hc, hexact'.absent (hcap.trans hc), Option.map_none]
    | true =>
      obtain ⟨y, steps, hy, hops, hsteps⟩ := hexact.present hc
      obtain ⟨y', steps', hy', hops', hsteps'⟩ := hexact'.present (hcap.trans hc)
      have hyd : y = d := by simpa [hy] using hd
      have hyd' : y' = d' := by simpa [hy'] using hd'
      subst hyd hyd'
      rw [hrenamed] at hsteps'
      have hsame := FieldStep.Transfers.unique hsteps' (transfers_rename hfields h hd hsteps)
      rw [hops, hops', hsame, hmoves.complete_rename, Option.map_some]

/-- Nothing is reported exactly when no type is violating. -/
theorem diagnostics_eq_nil_iff (ht : t.Built) : (build t).diagnostics = [] ↔
    ∀ id, t.contains id = true → (build t).isViolating id = .ok false := by
  constructor
  · intro hnil id hid
    obtain ⟨x, hx, hexact⟩ := exists_exact ht hid
    rw [isViolating_of_factsOf hx, Except.ok.injEq]
    by_contra hv
    exact (Classification.reported_build t).violating id x (factsOf_eq_ok.1 hx) (by simpa using hv) hnil
  · intro h
    by_contra hne
    obtain ⟨id, hid, hfault⟩ := (Classification.faithful_build ht).founded hne
    obtain ⟨x, hx, hexact⟩ := exists_exact ht hid
    have hv := h id hid
    rw [isViolating_of_factsOf hx, Except.ok.injEq] at hv
    simp [hexact.violating.2 hfault] at hv

/-- The model of a table is exact, and the order of registration decides nothing but the numbers. -/
theorem build_exact (ht : t.Built) :
    (∀ id, t.contains id = true → Describes t id) ∧
      ((build t).diagnostics = [] ↔
        ∀ id, t.contains id = true → (build t).isViolating id = .ok false) ∧
      ∀ t' σ, t'.Built → t.Renamed σ t' → ∀ id, t.contains id = true → Agrees σ t t' id :=
  ⟨fun _ => describes ht, diagnostics_eq_nil_iff ht, fun _ _ ht' h _ => agrees ht ht' h⟩

end TypeModel

namespace TypeTable

def ring : TypeTable where
  defs := [
    { kind := .foreign, name := "Str", ops := { moveCtor := some {}, destructor := true } },
    { kind := .struct, name := "Node", fields := [⟨"name", 1⟩, ⟨"next", 3⟩] },
    { kind := .struct, name := "Link", fields := [⟨"back", 2⟩] },
    { kind := .struct, name := "Leaf", fields := [⟨"name", 1⟩] }]

def ringReversed : TypeTable where
  defs := [
    { kind := .struct, name := "Leaf", fields := [⟨"name", 4⟩] },
    { kind := .struct, name := "Link", fields := [⟨"back", 3⟩] },
    { kind := .struct, name := "Node", fields := [⟨"name", 4⟩, ⟨"next", 2⟩] },
    { kind := .foreign, name := "Str", ops := { moveCtor := some {}, destructor := true } }]

theorem ring_built : ring.Built := by
  have str : Built _ := .newForeign .empty
    (show newForeign _ "Str" { moveCtor := some {}, destructor := true } = .ok (_, 1) from rfl)
  have node : Built _ := .declareStruct str (show declareStruct _ "Node" {} = .ok (_, 2) from rfl)
  have link : Built _ := .declareStruct node (show declareStruct _ "Link" {} = .ok (_, 3) from rfl)
  have leaf : Built _ := .declareStruct link (show declareStruct _ "Leaf" {} = .ok (_, 4) from rfl)
  have node : Built _ := .defineStruct leaf
    (show defineStruct _ 2 [⟨"name", 1⟩, ⟨"next", 3⟩] = .ok _ from rfl)
  have link : Built _ := .defineStruct node (show defineStruct _ 3 [⟨"back", 2⟩] = .ok _ from rfl)
  exact .defineStruct link (show defineStruct _ 4 [⟨"name", 1⟩] = .ok ring from rfl)

theorem ringReversed_built : ringReversed.Built := by
  have leaf : Built _ := .declareStruct .empty (show declareStruct _ "Leaf" {} = .ok (_, 1) from rfl)
  have link : Built _ := .declareStruct leaf (show declareStruct _ "Link" {} = .ok (_, 2) from rfl)
  have node : Built _ := .declareStruct link (show declareStruct _ "Node" {} = .ok (_, 3) from rfl)
  have str : Built _ := .newForeign node
    (show newForeign _ "Str" { moveCtor := some {}, destructor := true } = .ok (_, 4) from rfl)
  have leaf : Built _ := .defineStruct str (show defineStruct _ 1 [⟨"name", 4⟩] = .ok _ from rfl)
  have link : Built _ := .defineStruct leaf (show defineStruct _ 2 [⟨"back", 3⟩] = .ok _ from rfl)
  exact .defineStruct link
    (show defineStruct _ 3 [⟨"name", 4⟩, ⟨"next", 2⟩] = .ok ringReversed from rfl)

theorem ring_renamed : ring.Renamed (fun id => 5 - id) ringReversed := by
  have known : ∀ id : Int, ring.contains id = true → id = 1 ∨ id = 2 ∨ id = 3 ∨ id = 4 := by
    intro id hid
    have hbounds := contains_iff.1 hid
    have hsize : ring.size = 4 := rfl
    omega
  constructor
  · intro a b _ _ h
    exact (Int.sub_right_inj 5).1 h
  · intro id d hd
    obtain rfl | rfl | rfl | rfl := known id (contains_of_get? hd) <;>
      · cases hd
        exact ⟨_, rfl, rfl, ⟨rfl, rfl, rfl⟩, rfl⟩

end TypeTable

theorem TypeModel.ring_exact :
    (∀ id, TypeTable.ring.contains id = true → Describes TypeTable.ring id) ∧
      (build TypeTable.ring).diagnostics ≠ [] ∧
      Agrees (fun id => 5 - id) TypeTable.ring TypeTable.ringReversed 4 := by
  obtain ⟨hall, hnil, hagree⟩ := build_exact TypeTable.ring_built
  refine ⟨hall, ?_, hagree _ _ TypeTable.ringReversed_built TypeTable.ring_renamed 4 (by decide)⟩
  intro h
  have hnode := hnil.1 h 2 (by decide)
  have hviolating : (build TypeTable.ring).isViolating 2 = .ok true := by decide +kernel
  rw [hnode] at hviolating
  cases hviolating

end MovePlan
