import Mathlib.Data.List.Perm.Subperm
import MovePlan.Proofs.Types.ByValue

set_option autoImplicit false

namespace MovePlan

namespace Classification
variable {t : TypeTable}

def fieldTypeName (t : TypeTable) (f : Field) : String := ((t.get? f.type).map TypeDef.name).getD ""

def closeCycle (t : TypeTable) (d : TypeDef) (f : Field) (c : Classification) : Classification :=
  c.report "E_RECURSIVE_BY_VALUE"
    s!"struct '{d.name}' field '{f.name}' holds '{fieldTypeName t f}' by value, forming a cycle" d.ops.span

def refuseField (t : TypeTable) (d : TypeDef) (f : Field) (c : Classification) : Classification :=
  c.report "E_FIELD_MOVE_CAN_FAIL"
    s!"struct '{d.name}' field '{f.name}' has type '{fieldTypeName t f}' whose move operations are invalid"
    d.ops.span

def FieldSummary.add (s : FieldSummary) (x : TypeFacts) : FieldSummary where
  violating := s.violating || x.violating
  anyCapable := s.anyCapable || x.moveCapable
  needsDestroy := s.needsDestroy || x.needsDestroy

section Fold
variable {d : TypeDef} {busy : List TypeId} {f : Field} {fields : List Field} {c : Classification}
  {s : FieldSummary} {classify : TypeId → Classification → Classification × TypeFacts}

theorem foldFields_busy (h : f.type ∈ busy) :
    foldFields t d busy classify (f :: fields) c s =
      foldFields t d busy classify fields (closeCycle t d f c) { s with violating := true } := by
  rw [foldFields, if_pos h]
  rfl

theorem foldFields_refuse (h : f.type ∉ busy) (hv : (classify f.type c).2.violating = true) :
    foldFields t d busy classify (f :: fields) c s =
      foldFields t d busy classify fields (refuseField t d f (classify f.type c).1)
        (s.add (classify f.type c).2) := by
  rw [foldFields, if_neg h]
  simp only [hv, if_true]
  rw [FieldSummary.add, hv]
  rfl

theorem foldFields_accept (h : f.type ∉ busy) (hv : (classify f.type c).2.violating = false) :
    foldFields t d busy classify (f :: fields) c s =
      foldFields t d busy classify fields (classify f.type c).1 (s.add (classify f.type c).2) := by
  rw [foldFields, if_neg h]
  simp only [hv]
  rw [FieldSummary.add, hv]
  rfl

end Fold

/-- Every violating type that is known was reported, and as an error. -/
structure Reported (c : Classification) : Prop where
  errors : ∀ e ∈ c.diagnostics, e.severity = .error
  violating : ∀ id x, c.facts.get? id = some x → x.violating = true → c.diagnostics ≠ []

/-- On the way from `c` to `c'` reports are only added, and one at least for a violation. -/
structure Reports (c c' : Classification) (violating : Bool) : Prop where
  reported : c'.Reported
  keeps : c.diagnostics ≠ [] → c'.diagnostics ≠ []
  found : violating = true → c'.diagnostics ≠ []

theorem Reports.trans {c c' c'' : Classification} {v w : Bool} (h : Reports c c' v)
    (h' : Reports c' c'' w) : Reports c c'' w :=
  ⟨h'.reported, fun hc => h'.keeps (h.keeps hc), h'.found⟩

theorem Reported.reports {c : Classification} (h : c.Reported) {v : Bool}
    (hv : v = true → c.diagnostics ≠ []) : Reports c c v :=
  ⟨h, fun hc => hc, hv⟩

theorem reports_report {c : Classification} (h : c.Reported) (code message : String) (span : Span)
    (v : Bool) : Reports c (c.report code message span) v := by
  have hsaid : (c.report code message span).diagnostics ≠ [] := by simp [report]
  refine ⟨⟨?_, fun _ _ _ _ => hsaid⟩, fun _ => hsaid, fun _ => hsaid⟩
  intro e he
  apply (List.mem_append.1 he).elim (h.errors e)
  intro he
  rw [List.mem_singleton.1 he]

theorem reports_reportFailing {c : Classification} (h : c.Reported) (d : TypeDef) :
    Reports c (c.reportFailing d) (!(failingMoves d).isEmpty) := by
  rw [reportFailing]
  induction failingMoves d generalizing c with
  | nil => exact h.reports (by simp)
  | cons m ms ih =>
    have hm := reports_report h "E_MOVE_CAN_FAIL"
      s!"{m.1} of '{d.name}' can fail; move operations must not raise"
      (if m.2.span.line.isSome then m.2.span else d.ops.span) true
    have hrest := hm.trans (ih hm.reported)
    exact ⟨hrest.reported, hrest.keeps, fun _ => (ih hm.reported).keeps (hm.found rfl)⟩

theorem reports_classifyForeign {c : Classification} (h : c.Reported) (d : TypeDef) :
    Reports c (classifyForeign d c).1 (classifyForeign d c).2.violating := by
  have hr := reports_reportFailing h d
  simp only [classifyForeign]
  split
  next hfail => exact ⟨hr.reported, hr.keeps, fun _ => hr.found hfail⟩
  next =>
    split
    · exact ⟨hr.reported, hr.keeps, by simp⟩
    · exact ⟨hr.reported, hr.keeps, by simp⟩

theorem reports_concludeStruct {c : Classification} (h : c.Reported) (d : TypeDef) {s : FieldSummary}
    (hs : s.violating = true → c.diagnostics ≠ []) :
    Reports c (concludeStruct d c s).1 (concludeStruct d c s).2.violating := by
  have hr := reports_reportFailing h d
  simp only [concludeStruct]
  split
  next hv =>
    refine ⟨hr.reported, hr.keeps, fun _ => ?_⟩
    rw [Bool.or_eq_true] at hv
    exact hv.elim (fun hv => hr.keeps (hs hv)) hr.found
  next =>
    split
    · exact ⟨hr.reported, hr.keeps, by simp⟩
    · exact ⟨hr.reported, hr.keeps, by simp⟩

theorem reports_foldFields {d : TypeDef} {busy : List TypeId}
    {classify : TypeId → Classification → Classification × TypeFacts}
    (hclassify : ∀ id c, c.Reported → Reports c (classify id c).1 (classify id c).2.violating)
    {fields : List Field} {c : Classification} {s : FieldSummary} (h : c.Reported)
    (hs : s.violating = true → c.diagnostics ≠ []) :
    Reports c (foldFields t d busy classify fields c s).1
      (foldFields t d busy classify fields c s).2.violating := by
  induction fields generalizing c s with
  | nil => exact h.reports hs
  | cons f fields ih =>
    by_cases hbusy : f.type ∈ busy
    · rw [foldFields_busy hbusy]
      have hf : Reports c (closeCycle t d f c) true := reports_report h _ _ _ _
      exact hf.trans (ih hf.reported fun _ => hf.found rfl)
    · have hf := hclassify f.type c h
      cases hv : (classify f.type c).2.violating with
      | true =>
        rw [foldFields_refuse hbusy hv]
        have hsaid : Reports _ (refuseField t d f (classify f.type c).1) true :=
          reports_report hf.reported _ _ _ _
        exact (hf.trans hsaid).trans (ih hsaid.reported fun _ => hsaid.found rfl)
      | false =>
        rw [foldFields_accept hbusy hv]
        refine hf.trans (ih hf.reported ?_)
        intro hs'
        have hold : s.violating = true := by simpa [FieldSummary.add, hv] using hs'
        exact hf.keeps (hs hold)

theorem reports_classify {depth : ℕ} {busy : List TypeId} {id : TypeId} {c : Classification}
    (h : c.Reported) :
    Reports c (classify t depth busy id c).1 (classify t depth busy id c).2.violating := by
  induction depth generalizing busy id c with
  | zero => exact h.reports (by simp [classify, TypeFacts.ordinary])
  | succ depth ih =>
    -- keeping the facts of the type says no more than was reported for it
    have keep : ∀ {c' : Classification} {x : TypeFacts}, Reports c c' x.violating →
        Reports c { c' with facts := c'.facts.put id x } x.violating := by
      intro c' x hr
      refine ⟨⟨hr.reported.errors, ?_⟩, hr.keeps, hr.found⟩
      intro k y hy hv
      rw [OrderedMap.get?_put] at hy
      split at hy
      · rw [Option.some.injEq] at hy
        exact hr.found (hy ▸ hv)
      · exact hr.reported.violating k y hy hv
    rw [classify]
    split
    next x hx => exact h.reports (h.violating id x hx)
    next =>
      apply keep
      split
      · exact h.reports (by simp [TypeFacts.ordinary])
      next d _ =>
        split
        · have hfold : Reports c
              (foldFields t d (id :: busy) (classify t depth (id :: busy)) d.fields c
                { needsDestroy := d.ops.destructor }).1
              (foldFields t d (id :: busy) (classify t depth (id :: busy)) d.fields c
                { needsDestroy := d.ops.destructor }).2.violating :=
            reports_foldFields (fun _ _ hc => ih hc) h (by simp)
          exact hfold.trans (reports_concludeStruct hfold.reported d hfold.found)
        · exact reports_classifyForeign h d
        · exact h.reports (by simp [TypeFacts.ordinary])

end Classification
end MovePlan
