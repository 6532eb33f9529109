import MovePlan.Proofs.Lowering.Symbols
import MovePlan.Proofs.Plan.Clean
import MovePlan.Proofs.Text.Named
import MovePlan.Proofs.Text.Types

set_option autoImplicit false

namespace MovePlan

mutual

/-- The symbol of a function and those of the functions nested in it. -/
def Function.symbols (symbol : String) : Function → List String
  | ⟨_, _, _, _, _, _, _, nested, _⟩ => symbol :: nestedSymbols symbol nested

def nestedSymbols (outer : String) : List Function → List String
  | [] => []
  | f :: fs => f.symbols s!"{outer}.{f.name}" ++ nestedSymbols outer fs

end

/-- The symbols of all functions of a program. -/
def programSymbols (functions : List Function) : List String :=
  functions.flatMap fun f => f.symbols f.name

theorem nestedSymbols_eq (outer : String) (fs : List Function) :
    nestedSymbols outer fs = fs.flatMap fun f => f.symbols s!"{outer}.{f.name}" := by
  induction fs with
  | nil => rw [nestedSymbols]; rfl
  | cons f fs ih => rw [nestedSymbols, ih, List.flatMap_cons]

theorem Function.symbols_eq (symbol : String) (f : Function) :
    f.symbols symbol = symbol :: f.nested.flatMap fun g => g.symbols s!"{symbol}.{g.name}" := by
  cases f
  rw [symbols, nestedSymbols_eq]

theorem height_le_of_mem {f : Function} {fs : List Function} (h : f ∈ fs) : f.height ≤ functionsHeight fs := by
  induction fs with
  | nil => cases h
  | cons g fs ih =>
    rw [functionsHeight]
    rcases List.mem_cons.1 h with rfl | h
    · exact Nat.le_max_left _ _
    · exact Nat.le_trans (ih h) (Nat.le_max_right _ _)

theorem Function.height_lt_of_mem {f g : Function} (h : g ∈ f.nested) : g.height < f.height := by
  have hle := height_le_of_mem h
  cases f
  rw [height]
  exact Nat.lt_succ_of_le hle

def LoweringUnit.symbols (u : LoweringUnit) : List String := u.function.symbols u.symbol

def outerUnits (functions : List Function) (plans : List FunctionPlan) : List LoweringUnit :=
  (functions.zip plans).map fun (f, p) => { function := f, plan := p, symbol := f.name }

/-- All units of a program, in the order in which they are lowered. -/
def unitsOf (functions : List Function) (plans : List FunctionPlan) : List LoweringUnit :=
  unitsByLevel (functionsHeight functions) (outerUnits functions plans)

theorem lowerProgram_eq (m : TypeModel) (functions : List Function) (plans : List FunctionPlan)
    (name : String) :
    lowerProgram m functions plans name = lowerUnits m (unitsOf functions plans) { name := name } := rfl

section
variable {R : Function → FunctionPlan → Prop} {u v : LoweringUnit}

theorem LoweringUnit.of_mem_nested (h : Throughout R u.function u.plan) (hv : v ∈ u.nested) :
    Throughout R v.function v.plan ∧ v.function.height < u.function.height ∧
      v.symbol = s!"{u.symbol}.{v.function.name}" := by
  obtain ⟨⟨g, p⟩, hmem, rfl⟩ := List.mem_map.1 hv
  cases h with
  | mk _ inside =>
    refine ⟨(List.forall₂_iff_zip.1 inside).2 hmem, ?_, rfl⟩
    exact Function.height_lt_of_mem (List.of_mem_zip hmem).1

theorem LoweringUnit.symbols_eq (h : Throughout R u.function u.plan) :
    u.symbols = u.symbol :: u.nested.flatMap symbols := by
  cases h with
  | mk _ inside =>
    have hfst : (u.function.nested.zip u.plan.nested).map Prod.fst = u.function.nested :=
      List.map_fst_zip (Nat.le_of_eq inside.length_eq)
    rw [symbols, Function.symbols_eq, nested, List.flatMap_map]
    conv_lhs => rw [← hfst, List.flatMap_map]
    rfl

theorem forall_unitsByLevel {depth : ℕ} {us : List LoweringUnit}
    (h : ∀ u ∈ us, Throughout R u.function u.plan ∧ u.symbol ≠ "") :
    ∀ v ∈ unitsByLevel depth us, R v.function v.plan ∧ v.symbol ≠ "" := by
  induction depth generalizing us with
  | zero =>
    intro v hv
    cases hv
  | succ depth ih =>
    intro v hv
    rcases List.mem_append.1 hv with hv | hv
    · obtain ⟨hall, hname⟩ := h v hv
      cases hall with
      | mk here _ => exact ⟨here, hname⟩
    · apply ih _ v hv
      intro w hw
      obtain ⟨u, hu, hw⟩ := List.mem_flatMap.1 hw
      obtain ⟨hall, _, hsymbol⟩ := LoweringUnit.of_mem_nested (h u hu).1 hw
      refine ⟨hall, fun hempty => ?_⟩
      -- the dot is in the symbol
      rw [hsymbol, String.append_eq_empty_iff, String.append_eq_empty_iff] at hempty
      exact absurd hempty.1.2 (by decide)

theorem symbols_unitsByLevel {depth : ℕ} {us : List LoweringUnit}
    (h : ∀ u ∈ us, Throughout R u.function u.plan) (hdepth : ∀ u ∈ us, u.function.height ≤ depth) :
    ((unitsByLevel depth us).map LoweringUnit.symbol).Perm (us.flatMap LoweringUnit.symbols) := by
  induction depth generalizing us with
  | zero =>
    cases us with
    | nil => exact .nil
    | cons u us =>
      have hpos : u.function.height ≤ 0 := hdepth u List.mem_cons_self
      cases hf : u.function
      rw [hf, Function.height] at hpos
      omega
  | succ depth ih =>
    have hnext : ((unitsByLevel depth (us.flatMap LoweringUnit.nested)).map LoweringUnit.symbol).Perm
        ((us.flatMap LoweringUnit.nested).flatMap LoweringUnit.symbols) := by
      apply ih
      · intro v hv
        obtain ⟨u, hu, hv⟩ := List.mem_flatMap.1 hv
        exact (LoweringUnit.of_mem_nested (h u hu) hv).1
      · intro v hv
        obtain ⟨u, hu, hv⟩ := List.mem_flatMap.1 hv
        have hlt := (LoweringUnit.of_mem_nested (h u hu) hv).2.1
        have hle := hdepth u hu
        omega
    have hsplit : us.flatMap LoweringUnit.symbols =
        us.flatMap fun u => [u.symbol] ++ u.nested.flatMap LoweringUnit.symbols := by
      apply List.flatMap_congr
      intro u hu
      exact LoweringUnit.symbols_eq (h u hu)
    have hlevel : us.map LoweringUnit.symbol = us.flatMap fun u => [u.symbol] := List.map_eq_flatMap
    rw [hsplit, unitsByLevel, List.map_append, hlevel]
    apply List.Perm.trans (hnext.append_left _)
    rw [List.flatMap_assoc]
    exact List.flatMap_append_perm us _ _

variable {fs : List Function} {plans : List FunctionPlan}

theorem of_mem_outerUnits (h : List.Forall₂ (Throughout R) fs plans) (hv : v ∈ outerUnits fs plans) :
    v.function ∈ fs ∧ v.symbol = v.function.name ∧ Throughout R v.function v.plan := by
  obtain ⟨⟨f, p⟩, hmem, rfl⟩ := List.mem_map.1 hv
  exact ⟨(List.of_mem_zip hmem).1, rfl, (List.forall₂_iff_zip.1 h).2 hmem⟩

theorem forall_unitsOf (h : List.Forall₂ (Throughout R) fs plans) (hnames : ∀ f ∈ fs, f.name ≠ "") :
    ∀ v ∈ unitsOf fs plans, R v.function v.plan ∧ v.symbol ≠ "" := by
  apply forall_unitsByLevel
  intro u hu
  obtain ⟨hf, hsymbol, hall⟩ := of_mem_outerUnits h hu
  exact ⟨hall, hsymbol ▸ hnames _ hf⟩

theorem symbols_unitsOf (h : List.Forall₂ (Throughout R) fs plans) :
    ((unitsOf fs plans).map LoweringUnit.symbol).Perm (programSymbols fs) := by
  have hfst : (fs.zip plans).map Prod.fst = fs := List.map_fst_zip (Nat.le_of_eq h.length_eq)
  have houter : (outerUnits fs plans).flatMap LoweringUnit.symbols = programSymbols fs := by
    rw [programSymbols, outerUnits, List.flatMap_map]
    conv_rhs => rw [← hfst, List.flatMap_map]
    rfl
  rw [← houter]
  apply symbols_unitsByLevel
  · exact fun u hu => (of_mem_outerUnits h hu).2.2
  · exact fun u hu => height_le_of_mem (of_mem_outerUnits h hu).1

end

theorem Throughout.everywhere {P : Function → Prop} {R : Function → FunctionPlan → Prop} {f : Function}
    {plan : FunctionPlan} (h : Throughout R f plan) (hP : Everywhere P f) :
    Throughout (fun g q => P g ∧ R g q) f plan := by
  induction f using nested_induction generalizing plan with
  | step f ih =>
    cases h with
    | mk here inside =>
      apply Throughout.mk ⟨hP.here, here⟩
      exact forall₂_imp_of_mem inside fun g hg q hq => ih g hg hq (hP.inside hg)

section
variable {m : TypeModel} {t : TypeTable} {settings : Settings} {f : Function} {plan : FunctionPlan}

/-- Nested functions have the plans that were made for them. -/
theorem throughout_planFunction (h : planFunction m settings f = .ok plan) :
    Throughout (fun g q => planFunction m settings g = .ok q) f plan := by
  induction f using nested_induction generalizing plan with
  | step f ih =>
    obtain ⟨_, inner, _, hinner, rfl⟩ := planFunction_eq_ok.1 h
    apply Throughout.mk h
    exact forall₂_imp_of_mem hinner fun g hg q hq => ih g hg hq

theorem Function.exists_sketch_of_planFunction (ht : t.FieldsRegistered) (hone : f.DeclaredOnce)
    (h : planFunction (TypeModel.build t) settings f = .ok plan) (hx : plan.excluded = false) :
    f.danglingEdge? = none ∧ ∃ sk, f.skeleton (TypeModel.build t) plan = .ok sk ∧
      plan.Sketches (TypeModel.build t) f sk := by
  have wf := (planned_of_planFunction h hx).wf
  have hnamed : plan.Named (TypeModel.build t) := named_of_planFunction ht h
  obtain ⟨body, _, hbody, _, rfl⟩ := planFunction_eq_ok.1 h
  obtain ⟨ds, hvalid, herrors⟩ := valid_of_bodyPlan hbody (show body.excluded = false from hx)
  refine ⟨danglingEdge?_eq_none wf, ?_⟩
  exact FunctionPlan.exists_sketch wf hone (fun he => src_of_validate hvalid herrors he) hnamed

end

section
variable {texts : List (String × Option String)} {program : Program} {settings : Settings} {p : ProgramPlan}

theorem sketches_of_ok (hprogram : Program.ofTexts texts = .ok program)
    (hplan : planProgram program.table program.functions settings = .ok p) (hok : p.ok = true) :
    List.Forall₂ (Throughout fun g q => g.danglingEdge? = none ∧
      ∃ sk, g.skeleton p.model q = .ok sk ∧ q.Sketches p.model g sk) p.functions p.plans := by
  have hp := plans_of_planProgram hplan
  rw [hp.functions, hp.model]
  apply forall₂_imp_of_mems hp.plans
  intro f hf plan hmem h
  have hown := (throughout_planFunction h).imp_within fun g q hq hg =>
    And.intro hg (not_excluded_of_ok hplan hok hmem hq)
  have hall := hown.everywhere (Program.declaredOnce hprogram f hf)
  apply hall.imp_within
  rintro g q _ ⟨hone, hg, hx⟩
  exact Function.exists_sketch_of_planFunction (Program.built hprogram).fieldsRegistered hone hg hx

theorem units_of_ok (hprogram : Program.ofTexts texts = .ok program)
    (hplan : planProgram program.table program.functions settings = .ok p) (hok : p.ok = true) :
    ∀ u ∈ unitsOf p.functions p.plans, (u.function.danglingEdge? = none ∧
      ∃ sk, u.function.skeleton p.model u.plan = .ok sk ∧ u.plan.Sketches p.model u.function sk) ∧
      u.symbol ≠ "" := by
  apply forall_unitsOf (sketches_of_ok hprogram hplan hok)
  rw [(plans_of_planProgram hplan).functions]
  exact fun f hf => (Program.isName hprogram f hf).nonempty

theorem ready_of_ok (hprogram : Program.ofTexts texts = .ok program)
    (hplan : planProgram program.table program.functions settings = .ok p) (hok : p.ok = true) :
    ∀ u ∈ unitsOf p.functions p.plans, u.Ready p.model := by
  intro u hu
  obtain ⟨⟨hclosed, sk, hsk, _⟩, hname⟩ := units_of_ok hprogram hplan hok u hu
  exact ⟨hclosed, ⟨sk, hsk⟩, hname⟩

theorem symbols_of_ok (hprogram : Program.ofTexts texts = .ok program)
    (hplan : planProgram program.table program.functions settings = .ok p) (hok : p.ok = true) :
    ((unitsOf p.functions p.plans).map LoweringUnit.symbol).Perm (programSymbols program.functions) := by
  have hfunctions : programSymbols p.functions = programSymbols program.functions := by
    rw [(plans_of_planProgram hplan).functions]
  rw [← hfunctions]
  exact symbols_unitsOf (sketches_of_ok hprogram hplan hok)

theorem Module.nodup_defined (mod : Module) : mod.defined.Nodup :=
  (List.filter_sublist.map Prod.fst).nodup mod.globals.nodup

/-- In a program without errors every function is defined exactly once, or there is no module at all. It
is missing just if a function comes to a symbol that a function before it takes, for itself or for one that
its code calls. -/
theorem lowerProgram_exact (hprogram : Program.ofTexts texts = .ok program)
    (hplan : planProgram program.table program.functions settings = .ok p) (hok : p.ok = true)
    (name : String) :
    ((∃ mod, lowerProgram p.model p.functions p.plans name = .ok mod) ↔
      (unitsOf p.functions p.plans).Pairwise fun u v => ¬ u.Takes p.model v.symbol) ∧
    (∀ mod, lowerProgram p.model p.functions p.plans name = .ok mod →
      mod.defined.Perm (programSymbols program.functions) ∧ mod.defined.Nodup) ∧
    ∀ e, lowerProgram p.model p.functions p.plans name = .error e →
      ∃ u v, [u, v].Sublist (unitsOf p.functions p.plans) ∧ u.Takes p.model v.symbol ∧
        e = .duplicateSymbol v.symbol := by
  have hsymbols := symbols_of_ok hprogram hplan hok
  rw [lowerProgram_eq]
  rcases lowerUnits_cases (ready_of_ok hprogram hplan hok) { name := name } with
    ⟨_, hapart, mod, hmod, hdefined⟩ | ⟨v, _, herr, hclash⟩
  · rw [hmod]
    refine ⟨⟨fun _ => hapart, fun _ => ⟨mod, rfl⟩⟩, ?_, ?_⟩
    · intro mod' heq
      rw [Except.ok.injEq] at heq
      subst heq
      refine ⟨?_, mod.nodup_defined⟩
      rw [hdefined]
      exact hsymbols
    · intro e he
      cases he
  · obtain ⟨u, huv, htakes⟩ := hclash.resolve_left fun hmem => by cases hmem
    rw [herr]
    refine ⟨⟨?_, fun hapart => ?_⟩, ?_, ?_⟩
    · rintro ⟨mod, hmod⟩
      cases hmod
    · exact absurd htakes (List.pairwise_pair.1 (hapart.sublist huv))
    · intro mod hmod
      cases hmod
    · intro e he
      rw [Except.error.injEq] at he
      exact ⟨u, v, huv, htakes, he.symm⟩

end

def outerTexts : List (String × Option String) :=
  [("type Str opaque move_ctor drop fn f() { block 0: decl t: Str move t -> return ret fn g() { block 0: ret } }",
    none), ("fn h() { block 0: ret }", none)]

theorem lowerProgram_outerTexts :
    ∃ (program : Program) (p : ProgramPlan) (mod : Module), Program.ofTexts outerTexts = .ok program ∧
      planProgram program.table program.functions {} = .ok p ∧ p.ok = true ∧
      lowerProgram p.model p.functions p.plans "m" = .ok mod ∧ mod.defined.Perm ["f", "f.g", "h"] ∧
      mod.defined.Nodup := by
  have hrun : ((Program.ofTexts outerTexts).bind fun program =>
      (planProgram program.table program.functions {}).map fun p =>
        (p.ok, (lowerProgram p.model p.functions p.plans "m").isOk, programSymbols program.functions)) =
      .ok (true, true, ["f", "f.g", "h"]) := by
    decide +kernel
  obtain ⟨program, hprogram, hrun⟩ := bind_eq_ok.1 hrun
  obtain ⟨p, hp, hrun⟩ := map_eq_ok.1 hrun
  simp only [Prod.mk.injEq] at hrun
  obtain ⟨hok, hlower, hsymbols⟩ := hrun
  cases hmod : lowerProgram p.model p.functions p.plans "m" with
  | error e =>
    rw [hmod] at hlower
    cases hlower
  | ok mod =>
    obtain ⟨hperm, hnodup⟩ := (lowerProgram_exact hprogram hp hok "m").2.1 mod hmod
    exact ⟨program, p, mod, hprogram, hp, hok, hmod, hsymbols ▸ hperm, hnodup⟩

def Clashes (texts : List (String × Option String)) (symbol : String) : Prop :=
  ∃ (program : Program) (p : ProgramPlan), Program.ofTexts texts = .ok program ∧
    hasErrors program.diagnostics = false ∧ planProgram program.table program.functions {} = .ok p ∧
    p.ok = true ∧ lowerProgram p.model p.functions p.plans "m" = .error (.duplicateSymbol symbol)

theorem clashes_of_run {texts : List (String × Option String)} {symbol : String}
    (h : ((Program.ofTexts texts).bind fun program =>
      (planProgram program.table program.functions {}).map fun p =>
        (hasErrors program.diagnostics, p.ok,
          match lowerProgram p.model p.functions p.plans "m" with
          | .ok _ => none
          | .error e => some e)) = .ok (false, true, some (.duplicateSymbol symbol))) :
    Clashes texts symbol := by
  obtain ⟨program, hprogram, h⟩ := bind_eq_ok.1 h
  obtain ⟨p, hp, h⟩ := map_eq_ok.1 h
  simp only [Prod.mk.injEq] at h
  obtain ⟨hclean, hok, hlower⟩ := h
  refine ⟨program, p, hprogram, hclean, hp, hok, ?_⟩
  cases hmod : lowerProgram p.model p.functions p.plans "m" with
  | ok mod =>
    rw [hmod] at hlower
    cases hlower
  | error e =>
    rw [hmod] at hlower
    rw [Option.some.inj hlower]

/-- Two outer functions of different texts, two functions nested side by side, and a nested function with
the symbol of a marker. -/
theorem lowerProgram_clashes :
    Clashes [("fn f() { block 0: ret }", none), ("fn f() { block 0: ret }", none)] "f" ∧
    Clashes [("fn f() { block 0: ret fn g() { block 0: ret } fn g() { block 0: ret } }", none)] "f.g" ∧
    Clashes [("type T opaque fn movec() { block 0: decl t: T ret fn decl() { block 0: ret } }", none)]
      "movec.decl" := by
  refine ⟨clashes_of_run ?_, clashes_of_run ?_, clashes_of_run ?_⟩
  · decide +kernel
  · decide +kernel
  · decide +kernel

end MovePlan
