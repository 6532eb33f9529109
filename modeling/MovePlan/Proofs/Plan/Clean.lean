import MovePlan.CommandLine.Response
import MovePlan.Proofs.Plan.Total
import MovePlan.Proofs.Types.Classified

set_option autoImplicit false

namespace MovePlan

inductive FunctionPlan.Within : FunctionPlan → FunctionPlan → Prop
  | self {p : FunctionPlan} : Within p p
  | nested {q r p : FunctionPlan} : r ∈ p.nested → Within q r → Within q p

theorem mem_plansDiagnostics {e : Diagnostic} {p : FunctionPlan} {ps : List FunctionPlan} (hp : p ∈ ps)
    (he : e ∈ p.allDiagnostics) : e ∈ plansDiagnostics ps := by
  induction ps with
  | nil => simp at hp
  | cons x ps ih =>
    rw [plansDiagnostics, List.mem_append]
    apply (List.mem_cons.1 hp).imp
    · rintro rfl
      exact he
    · exact ih

theorem FunctionPlan.allDiagnostics_eq (p : FunctionPlan) :
    p.allDiagnostics = p.diagnostics ++ plansDiagnostics p.nested := by
  cases p
  rw [allDiagnostics]

theorem FunctionPlan.Within.mem_allDiagnostics {q p : FunctionPlan} (h : q.Within p) {e : Diagnostic}
    (he : e ∈ q.diagnostics) : e ∈ p.allDiagnostics := by
  induction h with
  | self =>
    rw [allDiagnostics_eq]
    exact List.mem_append_left _ he
  | nested hr _ ih =>
    rw [allDiagnostics_eq]
    exact List.mem_append_right _ (mem_plansDiagnostics hr ih)

theorem Throughout.of_within {R : Function → FunctionPlan → Prop} {f : Function} {p q : FunctionPlan}
    (h : Throughout R f p) (hq : q.Within p) : ∃ g, R g q := by
  induction hq generalizing f with
  | self =>
    cases h with
    | mk here _ => exact ⟨f, here⟩
  | nested hr _ ih =>
    cases h with
    | mk _ inside =>
      obtain ⟨g, _, hg⟩ := exists_of_forall₂_right inside hr
      exact ih hg

theorem Throughout.imp_within {R S : Function → FunctionPlan → Prop} {f : Function} {p : FunctionPlan}
    (h : Throughout R f p) (himp : ∀ g q, q.Within p → R g q → S g q) : Throughout S f p := by
  induction f using nested_induction generalizing p with
  | step f ih =>
    cases h with
    | mk here inside =>
      refine .mk (himp f p .self here) (forall₂_imp_of_mems inside ?_)
      intro g hg q hq h
      exact ih g hg h fun g' q' hq' => himp g' q' (.nested hq hq')

theorem hasErrors_append {ds es : List Diagnostic} :
    hasErrors (ds ++ es) = true ↔ hasErrors ds = true ∨ hasErrors es = true := by
  rw [hasErrors, List.any_append, Bool.or_eq_true]
  rfl

theorem hasErrors_of_subset {ds es : List Diagnostic} (h : ds ⊆ es) (hds : hasErrors ds = true) :
    hasErrors es = true := by
  obtain ⟨e, he, herr⟩ := List.any_eq_true.1 hds
  exact List.any_eq_true.2 ⟨e, h he, herr⟩

namespace Function
variable {f : Function} {t : TypeTable} {m : TypeModel} {settings : Settings} {plan : FunctionPlan}

theorem diagnostics_fallbackPlan {ds : List Diagnostic} (h : f.fallbackPlan m settings ds = .ok plan) :
    plan.diagnostics = ds :=
  (inert_fallbackPlan h).diagnostics

theorem isViolating_of_violatingName? {type : TypeId} {name : String}
    (h : violatingName? m type = .ok (some name)) : m.isViolating type = .ok true := by
  rw [violatingName?] at h
  split at h
  · cases h
  · obtain ⟨violating, hv, h⟩ := bind_eq_ok.1 h
    cases violating with
    | true => exact liftType_eq_ok.1 hv
    | false => cases h

theorem exists_violating {ds : List Diagnostic} (h : f.violations m = .ok ds) (hne : ds ≠ []) :
    ∃ type, m.isViolating type = .ok true := by
  have cause : ∀ {type : TypeId} {g : String → Diagnostic} {e : Diagnostic},
      (do return (← violatingName? m type).map g : Except Fault (Option Diagnostic)) = .ok (some e) →
        m.isViolating type = .ok true := by
    intro type g e h
    obtain ⟨name, hname, h⟩ := bind_eq_ok.1 h
    rw [pure_eq_ok] at h
    cases name with
    | none => cases h
    | some name => exact isViolating_of_violatingName? hname
  obtain ⟨bindings, hbindings, h⟩ := bind_eq_ok.1 h
  obtain ⟨temps, htemps, h⟩ := bind_eq_ok.1 h
  rw [pure_eq_ok] at h
  obtain ⟨e, he⟩ := List.exists_mem_of_ne_nil _ hne
  have hmem : some e ∈ bindings ++ temps := by simpa [← h] using he
  apply (List.mem_append.1 hmem).elim
  · intro hb
    obtain ⟨b, _, hb⟩ := mem_of_mapM hbindings hb
    exact ⟨_, cause hb⟩
  · intro ht
    obtain ⟨s, _, hs⟩ := mem_of_mapM htemps ht
    cases htype : s.tempType with
    | none => simp [htype] at hs; cases hs
    | some type =>
      simp only [htype] at hs
      exact ⟨_, cause hs⟩

theorem hasErrors_of_excluded (h : f.bodyPlan (TypeModel.build t) settings = .ok plan)
    (hx : plan.excluded = true) :
    hasErrors plan.diagnostics = true ∨ hasErrors (TypeModel.build t).diagnostics = true := by
  obtain ⟨defects, _, h⟩ := bind_eq_ok.1 h
  split at h
  next herrors =>
    left
    rwa [diagnostics_fallbackPlan h]
  obtain ⟨warnings, hwarnings, h⟩ := bind_eq_ok.1 h
  split at h
  next hsome =>
    right
    obtain ⟨type, htype⟩ := exists_violating hwarnings (by simpa using hsome)
    exact TypeModel.hasErrors_of_isViolating htype
  obtain ⟨facts, _, h⟩ := bind_eq_ok.1 h
  obtain ⟨own, hown, h⟩ := bind_eq_ok.1 h
  rw [pure_eq_ok] at h
  subst h
  left
  obtain ⟨_, _, hown⟩ := bind_eq_ok.1 hown
  obtain ⟨uses, _, hown⟩ := bind_eq_ok.1 hown
  split at hown
  next herrors =>
    have hdiag := diagnostics_fallbackPlan hown
    exact hasErrors_append.2 (.inr (hdiag ▸ herrors))
  next =>
    obtain ⟨_, _, hown⟩ := bind_eq_ok.1 hown
    obtain ⟨_, _, hown⟩ := bind_eq_ok.1 hown
    rw [pure_eq_ok] at hown
    subst hown
    cases hx

end Function

section Programs
variable {table : TypeTable} {functions : List Function} {settings : Settings} {p : ProgramPlan}

structure ProgramPlan.Plans (p : ProgramPlan) (table : TypeTable) (fs : List Function)
    (settings : Settings) : Prop where
  model : p.model = TypeModel.build table
  functions : p.functions = fs
  plans : List.Forall₂ (fun f plan => planFunction (TypeModel.build table) settings f = .ok plan) fs p.plans
  diagnostics : p.diagnostics = (TypeModel.build table).diagnostics ++ plansDiagnostics p.plans

theorem plans_of_planProgram (h : planProgram table functions settings = .ok p) :
    p.Plans table functions settings := by
  obtain ⟨plans, hplans, h⟩ := bind_eq_ok.1 h
  rw [pure_eq_ok] at h
  subst h
  rw [planFunctions_eq, mapM_eq_ok] at hplans
  exact ⟨rfl, rfl, hplans, rfl⟩

theorem hasErrors_of_within (h : planProgram table functions settings = .ok p) {plan q : FunctionPlan}
    (hplan : plan ∈ p.plans) (hq : q.Within plan) (hx : q.excluded = true) :
    hasErrors p.diagnostics = true := by
  have hp := plans_of_planProgram h
  obtain ⟨f, _, hf⟩ := exists_of_forall₂_right hp.plans hplan
  have hall : Throughout (fun _ r => r.excluded = true → hasErrors r.diagnostics = true ∨
      hasErrors (TypeModel.build table).diagnostics = true) f plan :=
    throughout_of_planFunction (fun _ body _ hbody hx =>
      Function.hasErrors_of_excluded hbody (show body.excluded = true from hx)) hf
  obtain ⟨_, hcause⟩ := hall.of_within hq
  rw [hp.diagnostics, hasErrors_append]
  apply (hcause hx).symm.imp_right
  apply hasErrors_of_subset
  intro e he
  exact mem_plansDiagnostics hplan (hq.mem_allDiagnostics he)

theorem not_excluded_of_ok (h : planProgram table functions settings = .ok p) (hok : p.ok = true)
    {plan q : FunctionPlan} (hplan : plan ∈ p.plans) (hq : q.Within plan) : q.excluded = false := by
  by_contra hx
  have herr := hasErrors_of_within h hplan hq (by simpa using hx)
  simp [ProgramPlan.ok, herr] at hok

end Programs

namespace CommandLine.Request

end CommandLine.Request

def returned : String :=
  "type Str opaque move_ctor drop fn f() { block 0: decl t: Str move t -> return ret fn g() { block 0: ret } }"

end MovePlan
