import MovePlan.Proofs.Flow.Shape
import MovePlan.Proofs.Text.Types

set_option autoImplicit false

namespace MovePlan

/-- Parameters and captured names are bound, and all types are those of the table. -/
structure Function.BoundIn (f : Function) (t : TypeTable) : Prop where
  signature : f.SignatureFits
  typed : ∀ {name : String} {x : Binding}, f.binding? name = some x → t.contains x.type = true

namespace Function.BoundIn
variable {f g : Function} {t t' : TypeTable}

theorem mono (h : f.BoundIn t) (ht : t.Extends t') : f.BoundIn t' :=
  ⟨h.signature, fun hx => ht.contains (h.typed hx)⟩

theorem congr (h : f.BoundIn t) (hparams : g.params = f.params) (hforwards : g.forwards = f.forwards)
    (hcap : g.captures = f.captures) {change : String → Binding → Binding}
    (hb : ∀ name, g.binding? name = (f.binding? name).map (change name))
    (hkeep : ∀ name x, (change name x).isParam = x.isParam ∧ (change name x).mode = x.mode ∧
      (x.captured = true → (change name x).captured = true))
    (htype : ∀ name x, (change name x).type = x.type) : g.BoundIn t where
  signature := h.signature.congr hparams hforwards hcap hb hkeep
  typed := by
    intro name y hy
    rw [hb] at hy
    obtain ⟨x, hx, rfl⟩ := Option.map_eq_some_iff.1 hy
    rw [htype]
    exact h.typed hx

theorem same (h : f.BoundIn t) (hparams : g.params = f.params) (hforwards : g.forwards = f.forwards)
    (hcap : g.captures = f.captures) (hb : g.bindings = f.bindings) : g.BoundIn t where
  signature := h.signature.same hparams hforwards hcap hb
  typed hx := by
    rw [Function.binding?, hb] at hx
    exact h.typed hx

theorem put (h : f.BoundIn t) {name : String} {x : Binding} (hfresh : f.binding? name = none)
    (hx : t.contains x.type = true) (hb : g.bindings = f.bindings.put name x)
    (hparams : g.params = f.params ++ if x.isParam then [name] else [])
    (hforwards : ∀ i ∈ g.forwards, i ∈ f.forwards ∨
      i = (f.params.length : ℤ) ∧ x.isParam = true ∧ x.mode = .moveRef)
    (hcap : g.captures = f.captures) : g.BoundIn t := by
  have hput : ∀ n, g.binding? n = if n = name then some x else f.binding? n := by
    intro n
    rw [Function.binding?, hb]
    exact OrderedMap.get?_put _ _ _ _
  refine ⟨h.signature.put hfresh hput hparams hforwards hcap, fun {n y} hy => ?_⟩
  rw [hput] at hy
  split at hy
  · rw [← Option.some.inj hy]
    exact hx
  · exact h.typed hy

end Function.BoundIn

namespace Text

def Assembly.Quiet (b : Assembly) : Prop := hasErrors b.diagnostics = false

theorem quiet_of_isPrefix {ds ds' : List Diagnostic} (h : ds <+: ds') (hq : hasErrors ds' = false) :
    hasErrors ds = false := by
  obtain ⟨new, rfl⟩ := h
  rw [hasErrors, List.any_append, Bool.or_eq_false_iff] at hq
  exact hq.1

theorem Assembly.Extends.quiet {b b' : Assembly} (h : b.Extends b') (hq : b'.Quiet) : b.Quiet :=
  quiet_of_isPrefix h.diagnostics hq

/-- What is reported is not taken back. -/
theorem not_quiet_of_report {α : Type} {phase code message : String} {span : Span} {next : Unit → Assemble α}
    {b b' : Assembly} {r : α} (h : (reportAs phase code message span >>= next) b = .ok (r, b'))
    (hnext : ∀ a, Builds (next a)) : ¬ b'.Quiet := by
  intro hq
  obtain ⟨a, b₁, hreport, h⟩ := run_bind.1 h
  have hquiet : b₁.Quiet := (hnext a b₁ r b' h).quiet hq
  rw [run_reportAs hreport, Assembly.Quiet, hasErrors, List.any_append,
    Bool.or_eq_false_iff] at hquiet
  simp [Diagnostic.isError] at hquiet

theorem contains_of_resolveType {e : TypeExpr} {b b' : Assembly} {t : TypeId}
    (h : resolveType e b = .ok (t, b')) (hq : b'.Quiet) : b'.table.contains t = true := by
  rcases resolveType_cases h with hcontains | ⟨message, span, h⟩
  · exact hcontains
  · exact absurd hq (not_quiet_of_report h fun _ => builds_ensureUnknown)

/-- What a name is bound to in a function that captures it. -/
def capturedFrom (parent : Option Function) (name : String) : Option Binding :=
  (parent.bind fun p => p.binding? name).map fun x => { name := name, type := x.type, captured := true }

theorem buildCaptures_quiet {parent : Option Function} {span : Span} {names : List String} {f g : Function}
    {b b' : Assembly} (h : buildCaptures parent span names f b = .ok (g, b')) (hq : b'.Quiet) :
    b' = b ∧ (∀ name ∈ names, (capturedFrom parent name).isSome = true) ∧
      ∃ bindings, g = { f with bindings := bindings } ∧
        ∀ name, bindings.get? name = if name ∈ names then capturedFrom parent name else f.binding? name := by
  induction names generalizing f with
  | nil =>
    obtain ⟨rfl, rfl⟩ := run_pure.1 h
    exact ⟨rfl, by simp, f.bindings, by cases f; rfl, fun _ => rfl⟩
  | cons name rest ih =>
    rw [buildCaptures] at h
    cases hx : parent.bind fun p => p.binding? name with
    | some x =>
      simp only [hx] at h
      have hname : capturedFrom parent name = some { name := name, type := x.type, captured := true } := by
        rw [capturedFrom, hx]
        rfl
      obtain ⟨rfl, hrest, bindings, rfl, hget⟩ := ih h
      refine ⟨rfl, ?_, bindings, rfl, fun n => ?_⟩
      · exact List.forall_mem_cons.2 ⟨by rw [hname]; rfl, hrest⟩
      · rw [hget, Function.binding?, OrderedMap.get?_put]
        by_cases hn : n = name
        · subst hn
          simp [hname]
        · simp [hn, Function.binding?]
    | none =>
      simp only [hx] at h
      refine absurd hq (not_quiet_of_report h fun _ => ?_)
      exact builds_ensureUnknown.bind fun _ => builds_buildCaptures _ _ _ _

theorem boundIn_captures {parent : Option Function} {f g : Function} {t : TypeTable}
    {bindings : OrderedMap String Binding} (hg : g = { f with bindings := bindings })
    (hget : ∀ name, bindings.get? name =
      if name ∈ f.captures then capturedFrom parent name else f.binding? name)
    (hcap : ∀ name ∈ f.captures, (capturedFrom parent name).isSome = true)
    (hempty : f.bindings = .empty) (hparams : f.params = []) (hforwards : f.forwards = [])
    (hparent : ∀ p, parent = some p → p.BoundIn t) : g.BoundIn t := by
  subst hg
  have hbinding : ∀ {name : String} {x : Binding}, bindings.get? name = some x →
      name ∈ f.captures ∧ ∃ p y, parent = some p ∧ p.binding? name = some y ∧
        x = { name := name, type := y.type, captured := true } := by
    intro name x hx
    rw [hget, Function.binding?, hempty] at hx
    split at hx
    next hn =>
      obtain ⟨y, hy, rfl⟩ := Option.map_eq_some_iff.1 hx
      obtain ⟨p, hp, hy⟩ := Option.bind_eq_some_iff.1 hy
      exact ⟨hn, p, y, hp, hy, rfl⟩
    next => cases hx
  refine ⟨⟨fun {name} => ?_, fun {i} hi => ?_, fun {name} hn => ?_⟩, fun {name x} hx => ?_⟩
  · refine ⟨fun hn => by simp [hparams] at hn, ?_⟩
    rintro ⟨x, hx, hparam⟩
    obtain ⟨-, p, y, -, -, rfl⟩ := hbinding hx
    cases hparam
  · simp [hforwards] at hi
  · obtain ⟨x, hx⟩ := Option.isSome_iff_exists.1 (hcap name hn)
    have hbound : bindings.get? name = some x := (hget name).trans ((if_pos hn).trans hx)
    obtain ⟨-, p, y, -, -, rfl⟩ := hbinding hbound
    exact ⟨_, hbound, rfl, rfl⟩
  · obtain ⟨-, p, y, hp, hy, rfl⟩ := hbinding hx
    have htyped := (hparent p hp).typed hy
    exact htyped

theorem buildParam_quiet {p : Parameter} {f g : Function} {b b' : Assembly}
    (h : buildParam f.params.length p f b = .ok (g, b')) (hq : b'.Quiet) (hf : f.BoundIn b.table) :
    g.BoundIn b'.table ∧ g.params.length = f.params.length + 1 ∧ ∃ bindings params forwards,
      g = { f with bindings := bindings, params := params, forwards := forwards } := by
  obtain ⟨type, b₁, htype, h⟩ := run_bind.1 h
  have hext := (builds_resolveType _ _ _ _ htype)
  dsimp only at h
  split at h
  next => exact absurd hq (not_quiet_of_report h fun _ => .pure _)
  next hfresh =>
    rw [OrderedMap.contains, Option.not_isSome_iff_eq_none] at hfresh
    by_cases hmode : (p.forward && decide (p.mode.getD .value ≠ .moveRef)) = true
    · rw [if_pos hmode] at h
      exact absurd hq (not_quiet_of_report h fun _ => (Builds.spanInFile _).bind fun _ => .pure _)
    · rw [if_neg hmode] at h
      obtain ⟨span, b₂, hspan, h⟩ := run_bind.1 h
      obtain ⟨rfl, rfl⟩ := run_spanInFile.1 hspan
      obtain ⟨rfl, rfl⟩ := run_pure.1 h
      refine ⟨(hf.mono hext.table).put hfresh ?_ rfl rfl ?_ rfl, by simp, _, _, _, rfl⟩
      · exact contains_of_resolveType htype hq
      · intro i hi
        split at hi
        next hforward =>
          rw [hforward, Bool.true_and, decide_eq_true_eq, not_not] at hmode
          exact (List.mem_append.1 hi).imp_right fun hi => ⟨List.mem_singleton.1 hi, rfl, hmode⟩
        next => exact .inl hi

theorem buildParams_quiet {index : ℕ} {ps : List Parameter} {f g : Function} {b b' : Assembly}
    (h : buildParams index ps f b = .ok (g, b')) (hq : b'.Quiet) (hf : f.BoundIn b.table)
    (hindex : index = f.params.length) : g.BoundIn b'.table ∧ ∃ bindings params forwards,
      g = { f with bindings := bindings, params := params, forwards := forwards } := by
  induction ps generalizing index f b with
  | nil =>
    obtain ⟨rfl, rfl⟩ := run_pure.1 h
    exact ⟨hf, f.bindings, f.params, f.forwards, by cases f; rfl⟩
  | cons p rest ih =>
    subst hindex
    obtain ⟨f₁, b₁, hp, h⟩ := run_bind.1 h
    have hq₁ := (builds_buildParams _ _ _ _ _ _ h).quiet hq
    obtain ⟨hf₁, hlen, bindings, params, forwards, rfl⟩ := buildParam_quiet hp hq₁ hf
    obtain ⟨hg, bindings', params', forwards', rfl⟩ := ih h hf₁ hlen.symm
    exact ⟨hg, bindings', params', forwards', rfl⟩

end Text
end MovePlan
