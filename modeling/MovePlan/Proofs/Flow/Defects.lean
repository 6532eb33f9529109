import MovePlan.Proofs.Flow.Defects.Findings

set_option autoImplicit false

namespace MovePlan
namespace Function
variable {f : Function} {model : Option TypeModel} {d : Defect}

theorem reports_findings_iff (hentry : f.hasBlock f.entry = true) : Reports (f.findings model) d ↔
    (∃ id blk e, f.block? id = some blk ∧ e ∈ blk.edges ∧ Reports (f.edgeFindings id blk e) d) ∨
    Reports f.labelFindings d ∨ Reports (f.sitesFindings model [] f.placedSites) d ∨
    Reports (f.bindings.values.flatMap (f.bindingFindings model)) d ∨
    Reports f.paramFindings d ∨ Reports f.forwardFindings d ∨ Reports f.captureFindings d := by
  rw [findings, hentry]
  simp only [↓reduceIte, bodyFindings, reports_append, reports_edges, or_assoc]

section Found
variable (hentry : f.hasBlock f.entry = true)
include hentry

theorem reports_of_edge {id : BlockId} {e : Edge} (he : e ∈ f.edgesAt id)
    (h : ∀ blk, Reports (f.edgeFindings id blk e) d) : Reports (f.findings model) d := by
  obtain ⟨blk, hb, he⟩ := mem_edgesAt_iff.1 he
  exact (reports_findings_iff hentry).2 (.inl ⟨id, blk, e, hb, he, h blk⟩)

theorem reports_of_label (h : Reports f.labelFindings d) : Reports (f.findings model) d :=
  (reports_findings_iff hentry).2 (.inr (.inl h))

theorem reports_of_sites (h : Reports (f.sitesFindings model [] f.placedSites) d) :
    Reports (f.findings model) d :=
  (reports_findings_iff hentry).2 (.inr (.inr (.inl h)))

theorem reports_of_site {s : Site} (hs : s ∈ f.allSites)
    (h : ∀ id i, Reports (f.siteFindings model [] id i s) d) : Reports (f.findings model) d := by
  obtain ⟨id, i, hi⟩ := exists_getElem?_of_mem hs
  exact reports_of_sites hentry (reports_sites.2 (.inl ⟨id, i, s, hi, h id i⟩))

theorem reports_of_region {key : String} {b : Binding} (hb : f.binding? key = some b)
    (h : Reports (f.regionFindings b) d) : Reports (f.findings model) d :=
  (reports_findings_iff hentry).2 (.inr (.inr (.inr (.inl (reports_bindings.2 ⟨key, b, hb, .inl h⟩)))))

theorem reports_of_type {key : String} {b : Binding} {m : TypeModel} (hb : f.binding? key = some b)
    (hm : model = some m) (h : Reports (f.typeFindings m b) d) : Reports (f.findings model) d :=
  (reports_findings_iff hentry).2 (.inr (.inr (.inr (.inl (reports_bindings.2 ⟨key, b, hb, .inr ⟨m, hm, h⟩⟩)))))

theorem reports_of_param (h : Reports f.paramFindings d) : Reports (f.findings model) d :=
  (reports_findings_iff hentry).2 (.inr (.inr (.inr (.inr (.inl h)))))

theorem reports_of_forward (h : Reports f.forwardFindings d) : Reports (f.findings model) d :=
  (reports_findings_iff hentry).2 (.inr (.inr (.inr (.inr (.inr (.inl h))))))

theorem reports_of_capture (h : Reports f.captureFindings d) : Reports (f.findings model) d :=
  (reports_findings_iff hentry).2 (.inr (.inr (.inr (.inr (.inr (.inr h))))))

end Found

theorem flawed_of_edgeFindings {id : BlockId} {blk : Block} {e : Edge} (hb : f.block? id = some blk)
    (he : e ∈ blk.edges) (h : Reports (f.edgeFindings id blk e) d) : f.Flawed model d := by
  have he : e ∈ f.edgesAt id := mem_edgesAt_iff.2 ⟨blk, hb, he⟩
  rcases reports_edgeFindings.1 h with ⟨hsrc, rfl⟩ | ⟨hdst, ⟨hl, rfl⟩ | ⟨label, hl, rfl⟩⟩ |
    ⟨dst, hdst, hk, hl, rfl⟩
  · exact .edgeSource he hsrc
  · exact .danglingEdge he hdst hl
  · exact .unknownLabel he hdst hl
  · exact .unlabeledTarget he hdst hk hl

theorem flawed_of_sitesFindings (h : Reports (f.sitesFindings model [] f.placedSites) d) :
    f.Flawed model d := by
  rcases reports_sites.1 h with ⟨id, i, s, hi, h⟩ | ⟨id, htwice, rfl⟩
  · have hs : s ∈ f.allSites := mem_allSites.2 ⟨id, List.mem_of_getElem? hi⟩
    rcases reports_siteFindings.1 h with ⟨hp, rfl⟩ | ⟨hseen, -⟩ |
      ⟨hn, ⟨hkind, rfl⟩ | ⟨t, m, hk, ht, hm, hc, rfl⟩⟩ | ⟨name, hn, hb, rfl⟩ | ⟨hk, ht, rfl⟩
    · exact .sitePosition hi hp
    · cases hseen
    · exact .untypedTemporary hs hn hkind
    · exact .unknownTempType hs hn hk ht hm hc
    · exact .unknownBinding hs hn hb
    · exact .missingTarget hs hk ht
  · exact .duplicateSite htwice

theorem flawed_of_bindingFindings (h : Reports (f.bindings.values.flatMap (f.bindingFindings model)) d) :
    f.Flawed model d := by
  obtain ⟨key, b, hb, h | ⟨m, hm, h⟩⟩ := reports_bindings.1 h
  · obtain ⟨region, hr, ⟨⟨id, hid, hmissing⟩, rfl⟩ | ⟨s, hs, hn, hk, hout, rfl⟩⟩ :=
      reports_regionFindings.1 h
    · exact .unknownRegionBlocks hb hr hid hmissing
    · exact .declOutsideRegion hb hs hn hk (by simpa [Binding.inRegion, hr] using hout)
  · rcases reports_typeFindings.1 h with ⟨hc, rfl⟩ | ⟨hc, s, hs, hn, e, he, rfl⟩
    · exact .unknownBindingType hm hb hc
    · exact .badPath hm hb hc hs hn he

theorem flawed_of_reports (hentry : f.hasBlock f.entry = true) (h : Reports (f.findings model) d) :
    f.Flawed model d := by
  rcases (reports_findings_iff hentry).1 h with ⟨id, blk, e, hb, he, h⟩ | h | h | h | h | h | h
  · exact flawed_of_edgeFindings hb he h
  · obtain ⟨id, blk, label, hb, hl, hr, rfl⟩ := reports_labelFindings.1 h
    exact .unreachableLabel hb hl hr
  · exact flawed_of_sitesFindings h
  · exact flawed_of_bindingFindings h
  · obtain ⟨name, hp, hlocal, rfl⟩ := reports_paramFindings.1 h
    exact .undeclaredParam hp hlocal
  · obtain ⟨i, hi, ⟨hlen, rfl⟩ | ⟨hlt, name, b, hname, hb, hmode, rfl⟩⟩ := reports_forwardFindings.1 h
    · exact .forwardOutOfRange hi hlen
    · exact .forwardNotMoveRef hi hlt hname hb hmode
  · obtain ⟨inner, hinner, name, hname, hb, rfl⟩ := reports_captureFindings.1 h
    exact .unknownCapture hinner hname hb

theorem reports_of_flawed (hentry : f.hasBlock f.entry = true) (h : f.Flawed model d) :
    Reports (f.findings model) d := by
  cases h with
  | edgeSource he hsrc =>
    exact reports_of_edge hentry he fun _ => reports_edgeFindings.2 (.inl ⟨hsrc, rfl⟩)
  | danglingEdge he hdst hl =>
    exact reports_of_edge hentry he fun _ => reports_edgeFindings.2 (.inr (.inl ⟨hdst, .inl ⟨hl, rfl⟩⟩))
  | unknownLabel he hdst hl =>
    exact reports_of_edge hentry he fun _ => reports_edgeFindings.2 (.inr (.inl ⟨hdst, .inr ⟨_, hl, rfl⟩⟩))
  | unlabeledTarget he hdst hk hl =>
    exact reports_of_edge hentry he fun _ => reports_edgeFindings.2 (.inr (.inr ⟨_, hdst, hk, hl, rfl⟩))
  | unreachableLabel hb hl hr =>
    exact reports_of_label hentry (reports_labelFindings.2 ⟨_, _, _, hb, hl, hr, rfl⟩)
  | sitePosition hs hp =>
    exact reports_of_sites hentry (reports_sites.2 (.inl ⟨_, _, _, hs, reports_siteFindings.2 (.inl ⟨hp, rfl⟩)⟩))
  | duplicateSite h => exact reports_of_sites hentry (reports_sites.2 (.inr ⟨_, h, rfl⟩))
  | untypedTemporary hs hn h =>
    exact reports_of_site hentry hs fun _ _ => reports_siteFindings.2 (.inr (.inr (.inl ⟨hn, .inl ⟨h, rfl⟩⟩)))
  | unknownTempType hs hn hk ht hm hc =>
    exact reports_of_site hentry hs fun _ _ =>
      reports_siteFindings.2 (.inr (.inr (.inl ⟨hn, .inr ⟨_, _, hk, ht, hm, hc, rfl⟩⟩)))
  | unknownBinding hs hn hb =>
    exact reports_of_site hentry hs fun _ _ => reports_siteFindings.2 (.inr (.inr (.inr (.inl ⟨_, hn, hb, rfl⟩))))
  | missingTarget hs hk ht =>
    exact reports_of_site hentry hs fun _ _ => reports_siteFindings.2 (.inr (.inr (.inr (.inr ⟨hk, ht, rfl⟩))))
  | unknownRegionBlocks hb hr hid h =>
    exact reports_of_region hentry hb (reports_regionFindings.2 ⟨_, hr, .inl ⟨⟨_, hid, h⟩, rfl⟩⟩)
  | @declOutsideRegion key b s hb hs hn hk hout =>
    refine reports_of_region hentry hb (reports_regionFindings.2 ?_)
    cases hr : b.region with
    | none => simp [Binding.inRegion, hr] at hout
    | some region =>
      exact ⟨region, rfl, .inr ⟨s, hs, hn, hk, by simpa [Binding.inRegion, hr] using hout, rfl⟩⟩
  | unknownBindingType hm hb hc =>
    exact reports_of_type hentry hb hm (reports_typeFindings.2 (.inl ⟨hc, rfl⟩))
  | badPath hm hb hc hs hn he =>
    exact reports_of_type hentry hb hm (reports_typeFindings.2 (.inr ⟨hc, _, hs, hn, _, he, rfl⟩))
  | undeclaredParam hp h => exact reports_of_param hentry (reports_paramFindings.2 ⟨_, hp, h, rfl⟩)
  | forwardOutOfRange hi h =>
    exact reports_of_forward hentry (reports_forwardFindings.2 ⟨_, hi, .inl ⟨h, rfl⟩⟩)
  | forwardNotMoveRef hi hlt hname hb hmode =>
    exact reports_of_forward hentry (reports_forwardFindings.2 ⟨_, hi, .inr ⟨hlt, _, _, hname, hb, hmode, rfl⟩⟩)
  | unknownCapture hinner hname hb =>
    exact reports_of_capture hentry (reports_captureFindings.2 ⟨_, hinner, _, hname, hb, rfl⟩)

/-- Validation of a function that has its entry finds its defects and no others. -/
theorem reports_findings (hentry : f.hasBlock f.entry = true) :
    Reports (f.findings model) d ↔ f.Flawed model d :=
  ⟨flawed_of_reports hentry, reports_of_flawed hentry⟩

theorem findings_noEntry (hentry : f.hasBlock f.entry = false) :
    f.findings model = [⟨.noEntry f.entry, f.span⟩] := by
  rw [findings, hentry]
  rfl

theorem findings_eq_nil_iff :
    f.findings model = [] ↔ f.hasBlock f.entry = true ∧ ∀ d, ¬ f.Flawed model d := by
  cases hentry : f.hasBlock f.entry with
  | false => simp [findings_noEntry hentry]
  | true =>
    simp only [List.eq_nil_iff_forall_not_mem, true_and]
    exact ⟨fun h d hd => by
        obtain ⟨x, hx, -⟩ := (reports_findings hentry).2 hd
        exact h x hx,
      fun h x hx => h _ ((reports_findings hentry).1 ⟨x, hx, rfl⟩)⟩

/-- The defects can be put into words: no number in their descriptions is too long. -/
def Describable (xs : List Finding) : Prop := ∀ x ∈ xs, x.defect.describe?.isSome = true

theorem toDiagnostic_eq_ok {name : String} {x : Finding} {e : Diagnostic} (h : x.toDiagnostic name = .ok e) :
    x.defect.describe?.isSome = true ∧ e.isError = true ∧ e.code = some x.defect.code := by
  obtain ⟨text, htext, h⟩ := bind_eq_ok.1 h
  rw [pure_eq_ok] at h
  subst h
  exact ⟨by rw [optionOr_eq_ok.1 htext]; rfl, rfl, rfl⟩

theorem exists_toDiagnostic {name : String} {x : Finding} (h : x.defect.describe?.isSome = true) :
    ∃ e, x.toDiagnostic name = .ok e := by
  obtain ⟨text, htext⟩ := Option.isSome_iff_exists.1 h
  exact exists_bind ⟨text, optionOr_eq_ok.2 htext⟩ fun _ _ => exists_pure

theorem exists_mapM_toDiagnostic_iff {name : String} {xs : List Finding} :
    (∃ ds, xs.mapM (Finding.toDiagnostic name) = .ok ds) ↔ Describable xs := by
  refine ⟨fun ⟨ds, h⟩ x hx => ?_, fun h => exists_mapM fun x hx => exists_toDiagnostic (h x hx)⟩
  obtain ⟨e, -, he⟩ := exists_mem_of_mapM h hx
  exact (toDiagnostic_eq_ok he).1

theorem validate_eq_ok {ds : List Diagnostic} : f.validate model = .ok ds ↔
    (f.hasBlock f.entry = true → f.forwardsInRange = true) ∧
      (f.findings model).mapM (Finding.toDiagnostic f.name) = .ok ds := by
  rw [validate, findings]
  cases hentry : f.hasBlock f.entry with
  | false => simp
  | true =>
    cases hrange : f.forwardsInRange with
    | false => simp [bind_eq_ok, throw, throwThe, MonadExceptOf.throw]
    | true => simp [List.mapM_append]

/-- Validation answers just if no forwarding index is below the first parameter and all that it finds
can be put into words. -/
theorem exists_validate_iff : (∃ ds, f.validate model = .ok ds) ↔
    (f.hasBlock f.entry = true → f.forwardsInRange = true) ∧ Describable (f.findings model) := by
  simp only [validate_eq_ok, exists_and_left, exists_mapM_toDiagnostic_iff]

theorem findings_of_validate {ds : List Diagnostic} (h : f.validate model = .ok ds)
    (hd : hasErrors ds = false) : f.findings model = [] := by
  rw [List.eq_nil_iff_forall_not_mem]
  intro x hx
  -- every finding is reported as an error
  obtain ⟨e, he, hxe⟩ := exists_mem_of_mapM (validate_eq_ok.1 h).2 hx
  rw [hasErrors, List.any_eq_false] at hd
  exact hd e he (toDiagnostic_eq_ok hxe).2.1

theorem validate_of_findings (h : f.findings model = [])
    (hrange : f.hasBlock f.entry = true → f.forwardsInRange = true) : f.validate model = .ok [] :=
  validate_eq_ok.2 ⟨hrange, by rw [h]; rfl⟩

theorem entry_of_validate {ds : List Diagnostic} (h : f.validate model = .ok ds)
    (hd : hasErrors ds = false) : f.hasBlock f.entry = true :=
  (findings_eq_nil_iff.1 (findings_of_validate h hd)).1

theorem unflawed_of_validate {ds : List Diagnostic} (h : f.validate model = .ok ds)
    (hd : hasErrors ds = false) (d : Defect) : ¬ f.Flawed model d :=
  (findings_eq_nil_iff.1 (findings_of_validate h hd)).2 d

end Function
end MovePlan
