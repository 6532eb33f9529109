import MovePlan.Proofs.Plan.UseAfterMove
import MovePlan.Proofs.Types.Inside

set_option autoImplicit false

namespace MovePlan
namespace Function
variable {f : Function} {m : TypeModel} {t : TypeTable} {settings : Settings} {facts : LastUseFacts}
  {mode : LastUseMode} {plan : FunctionPlan} {s : Site} {name : String} {b : Binding}

/-- What a site of a named binding must show for the value to go along. -/
structure MayGive (f : Function) (t : TypeTable) (settings : Settings) (facts : LastUseFacts) (s : Site)
    (name : String) (b : Binding) : Prop where
  /-- By its own name, the binding is not captured from outside and not lent to the function. -/
  own : b.name ∉ f.captures ∧ (b.isParam = true →
    b.mode ≠ .plainRef ∧ (b.mode = .moveRef → f.isForwardedParam b.name = false))
  /-- The place lies inside the binding, and no aggregate around it has a destructor. -/
  inside : (s.path ≠ [] → s.throughPointer = false) ∧
    ∃ leaf, t.PartOf b.type s.path leaf ∧ (TypeModel.build t).isMoveCapable leaf = .ok true
  forwarded : s.viaForward = true → settings.inlineForwarding = true
  last : s.explicit = false ∨ s.viaForward = true → facts.isLastUse s.id = true ∧ name ∉ f.capturedNames

/-- What a site must show for its value to go along. -/
structure Entitled (f : Function) (t : TypeTable) (settings : Settings) (facts : LastUseFacts) (s : Site) :
    Prop where
  kind : s.kind = .moveOut
  target : ∃ target, s.target = some target ∧ target.mode ≠ .plainRef ∧
    ¬ (target.kind = .callArg ∧ target.forwarding = true)
  temporary : s.binding = none →
    ∃ type, s.tempType = some type ∧ (TypeModel.build t).isMoveCapable type = .ok true
  named : ∀ name, s.binding = some name →
    ∃ b, f.binding? name = some b ∧ f.MayGive t settings facts s name b

theorem own_of_owned (h : f.ownership b = .owned) : b.name ∉ f.captures ∧ (b.isParam = true →
    b.mode ≠ .plainRef ∧ (b.mode = .moveRef → f.isForwardedParam b.name = false)) := by
  rw [ownership] at h
  split at h
  · cases h
  next hcaptured =>
  refine ⟨by simpa using hcaptured, fun hparam => ?_⟩
  split at h
  · cases h
  next hlent =>
  simp only [hparam, Bool.true_and, Bool.or_eq_true, decide_eq_true_eq, not_or, Bool.and_eq_true,
    not_and, Bool.not_eq_true] at hlent
  exact hlent

theorem notMem_capturedNames_of_lastUse {blocked : Option FieldBlock}
    (h : (f.accessFact mode name b s blocked).lastUse = true) : name ∉ f.capturedNames := by
  simp only [accessFact, Bool.and_eq_true, Option.isNone_iff_eq_none] at h
  obtain ⟨hlast, hfree⟩ := h
  rw [hlast, if_pos rfl, suppression?_eq_none] at hfree
  simpa using hfree.1

theorem of_isMoveCandidate (wf : f.WellFormed) (h : f.lastUseFacts m mode = .ok facts) (hs : s ∈ f.allSites)
    (hn : s.binding = some name) (hb : f.binding? name = some b) (ha : s.isAccess = true)
    (hcandidate : facts.isMoveCandidate s.id = true) :
    m.fieldBlock? b.type s = .ok none ∧ facts.isLastUse s.id = true ∧ name ∉ f.capturedNames := by
  obtain ⟨blocked, hblocked, hfact⟩ := fact?_eq wf h hs hn hb ha
  have hlast := facts.isLastUse_of_isMoveCandidate hcandidate
  rw [LastUseFacts.isMoveCandidate, hfact, Option.map_some, Option.getD_some, AccessFact.moveCandidate,
    Bool.and_eq_true] at hcandidate
  obtain ⟨hused, hfree⟩ := hcandidate
  obtain rfl : blocked = none := Option.isNone_iff_eq_none.1 hfree
  exact ⟨hblocked, hlast, notMem_capturedNames_of_lastUse hused⟩

theorem of_ownedVerdict (wf : f.WellFormed) (h : f.lastUseFacts m mode = .ok facts) (hs : s ∈ f.allSites)
    (hn : s.binding = some name) (hb : f.binding? name = some b) (ha : s.isAccess = true)
    (hv : (ownedVerdict settings facts s).1 = true) :
    m.fieldBlock? b.type s = .ok none ∧ (s.viaForward = true → settings.inlineForwarding = true) ∧
      (s.explicit = false ∨ s.viaForward = true →
        facts.isLastUse s.id = true ∧ name ∉ f.capturedNames) := by
  rw [ownedVerdict_iff] at hv
  split at hv
  next hforward =>
    obtain ⟨hfree, hlast⟩ := of_isMoveCandidate wf h hs hn hb ha hv.2
    exact ⟨hfree, fun _ => hv.1, fun _ => hlast⟩
  next hforward =>
  have hno : s.viaForward = true → settings.inlineForwarding = true := fun hyes => absurd hyes hforward
  split at hv
  next hexplicit =>
    obtain ⟨blocked, hblocked, hfact⟩ := fieldBlocked?_eq wf h hs hn hb ha
    rw [hv] at hfact
    exact ⟨hfact ▸ hblocked, hno, fun hor => by simp [hexplicit, hforward] at hor⟩
  next hexplicit =>
    obtain ⟨hfree, hlast⟩ := of_isMoveCandidate wf h hs hn hb ha hv
    exact ⟨hfree, hno, fun _ => hlast⟩

theorem leaf_of_siteType (hn : s.binding = some name) (hb : f.binding? name = some b) {type : TypeId}
    (h : f.siteType m s = .ok type) {p : PathTypes} (hp : m.resolvePath b.type s.path = .ok p) :
    type = p.leaf := by
  simp only [siteType, hn, hb, Option.bind_some, optionOr_eq_ok, TypeModel.leafType?, hp] at h
  split at h
  · cases h
  · exact (Option.some.inj h).symm

/-- A site that transfers is entitled to. -/
theorem entitled_of_decideSite (ht : t.Built) (wf : f.WellFormed)
    (hfacts : f.lastUseFacts (TypeModel.build t) mode = .ok facts) (hs : s ∈ f.allSites) {d : UseDecision}
    (h : f.decideSite (TypeModel.build t) settings facts s = .ok d) (hd : d.transfers = true) :
    f.Entitled t settings facts s := by
  obtain ⟨⟨hk, ⟨target, htarget, _, hmode, hforward⟩, type, htype, hcapable⟩, hv⟩ :=
    transfers_iff.1 ⟨d, h, hd⟩
  have ha : s.isAccess = true := by rw [Site.isAccess, hk]; rfl
  constructor
  case kind => exact hk
  case target =>
    exact ⟨target, htarget, hmode, by simpa [Target.isForwardingCall] using hforward⟩
  case temporary =>
    intro hn
    simp only [siteType, hn, optionOr_eq_ok] at htype
    exact ⟨type, htype, hcapable⟩
  case named =>
    intro name hn
    obtain ⟨b, hb⟩ := wf.binding hs hn
    have howned := (of_verdict hn hb hv).1
    rw [verdict, hn, Option.bind_some, hb, Option.map_some, howned] at hv
    obtain ⟨hfree, hforwarded, hlast⟩ := of_ownedVerdict wf hfacts hs hn hb ha hv
    obtain ⟨hthrough, p, hp, hpart⟩ := TypeModel.partOf_of_fieldBlock? ht hfree
    obtain rfl := leaf_of_siteType hn hb htype hp
    exact ⟨b, hb, own_of_owned howned, ⟨hthrough, p.leaf, hpart, hcapable⟩, hforwarded, hlast⟩

theorem transfers_temporary (hk : s.kind = .moveOut) (hn : s.binding = none) {type : TypeId}
    (htype : s.tempType = some type) (hcapable : m.isMoveCapable type = .ok true) {target : Target}
    (htarget : s.target = some target) (hmode : target.mode ≠ .plainRef)
    (hforward : ¬ (target.kind = .callArg ∧ target.forwarding = true)) :
    ∃ d, f.decideSite m settings facts s = .ok d ∧ d.transfers = true := by
  refine transfers_iff.2 ⟨⟨hk, ⟨target, htarget, ?_, hmode, ?_⟩, type, ?_, hcapable⟩, ?_⟩
  · rw [returnsForwarded, hn, Option.bind_none]
  · simpa [Target.isForwardingCall] using hforward
  · simp [siteType, hn, htype, optionOr]
  · rw [verdict, hn, Option.bind_none, Option.map_none]

/-- A decision transfers only where the site is entitled to, and every temporary of a move-capable type
transfers unless its target only looks at it. -/
theorem entitled_of_transfers (ht : t.Built) (h : planFunction (TypeModel.build t) settings f = .ok plan)
    (hx : plan.excluded = false) :
    ∃ facts, plan.facts = some facts ∧
      (∀ id d, plan.decisions.get? id = some d → d.transfers = true →
        ∃ s ∈ f.allSites, s.id = id ∧ f.Entitled t settings facts s) ∧
      ∀ s ∈ f.allSites, s.binding = none → ∀ type target, s.tempType = some type →
        (TypeModel.build t).isMoveCapable type = .ok true → s.target = some target →
        target.mode ≠ .plainRef → ¬ (target.kind = .callArg ∧ target.forwarding = true) →
        ∃ d, plan.decisions.get? s.id = some d ∧ d.transfers = true := by
  have wf := (planned_of_planFunction h hx).wf
  obtain ⟨facts, hplan, hfacts, hdecisions⟩ := facts_of_planFunction h hx
  refine ⟨facts, hplan, fun id d hd htransfers => ?_, ?_⟩
  · obtain ⟨s, hs, _, hid, hdecide⟩ := (get?_decisions wf hdecisions).1 hd
    exact ⟨s, hs, hid, entitled_of_decideSite ht wf hfacts hs hdecide htransfers⟩
  · intro s hs hn type target htype hcapable htarget hmode hforward
    have hk := wf.temporary hs hn
    obtain ⟨d, hd, htransfers⟩ : ∃ d, f.decideSite (TypeModel.build t) settings facts s = .ok d ∧
        d.transfers = true := transfers_temporary hk hn htype hcapable htarget hmode hforward
    exact ⟨d, (get?_decisions wf hdecisions).2 ⟨s, hs, by simp [hk], rfl, hd⟩, htransfers⟩

def handedOut : Function :=
  (Script.run .standard "f" .empty [
    .declare "h" (.named "Holder"),
    .moveOut (.place "h.inner.name") (some (.argument "g" 0 .value false false)) false false,
    .tempMove (.named "Str") (some (.argument "g" 0 .moveRef false false)),
    .ret .value []]).function

def handedOutPlan : FunctionPlan :=
  (planFunction (TypeModel.build .standard) {} handedOut).toOption.getD default

theorem entitled_handedOut : handedOutPlan.moves = [1, 2] ∧
    ∃ facts, handedOutPlan.facts = some facts ∧
      (∀ id d, handedOutPlan.decisions.get? id = some d → d.transfers = true →
        ∃ s ∈ handedOut.allSites, s.id = id ∧ handedOut.Entitled .standard {} facts s) ∧
      ∀ s ∈ handedOut.allSites, s.binding = none → ∀ type target, s.tempType = some type →
        (TypeModel.build .standard).isMoveCapable type = .ok true → s.target = some target →
        target.mode ≠ .plainRef → ¬ (target.kind = .callArg ∧ target.forwarding = true) →
        ∃ d, handedOutPlan.decisions.get? s.id = some d ∧ d.transfers = true :=
  ⟨by decide +kernel, entitled_of_transfers TypeTable.standard_built (eq_ok_of_isOk (by decide +kernel))
    (by decide +kernel)⟩

def forwardedTemporary : Function where
  name := "f"
  blocks := .ofList [
    (0, { sites := [{ id := 0, block := 0, index := 0, kind := .moveOut, binding := none,
                      target := some (.argument "g" 0 .value false false), viaForward := true,
                      tempType := some 2 }] })]

/-- A forwarded parameter that is kept under another name than its own. -/
def lentElsewhere : Function where
  name := "f"
  params := ["a"]
  forwards := [0]
  bindings := .ofList [("a", { name := "b", type := 2, isParam := true, mode := .moveRef })]
  blocks := .ofList [
    (0, { sites := [{ id := 0, block := 0, index := 0, kind := .moveOut, binding := some "a",
                      target := some (.argument "g" 0 .value false false) }] })]

def capturedElsewhere : Function where
  name := "f"
  captures := ["a"]
  bindings := .ofList [("a", { name := "b", type := 2 })]
  blocks := lentElsewhere.blocks

/-- The mark does not bear on a temporary: it goes along although forwarded references stay. And bindings are
looked up by the names under which they are kept, but owned by their own, so that a forwarded parameter and a
captured binding can be moved. -/
theorem transfers_forwardedTemporary :
    (forwardedTemporary.validate (some (TypeModel.build .standard)) = .ok [] ∧
      forwardedTemporary.violations (TypeModel.build .standard) = .ok [] ∧
      ∃ plan, planFunction (TypeModel.build .standard) { inlineForwarding := false } forwardedTemporary = .ok plan ∧
        plan.excluded = false ∧ ∃ s ∈ forwardedTemporary.allSites, s.viaForward = true ∧
          ∃ d, plan.decisions.get? s.id = some d ∧ d.transfers = true) ∧
    ∀ f ∈ [lentElsewhere, capturedElsewhere], f.validate (some (TypeModel.build .standard)) = .ok [] ∧
      f.violations (TypeModel.build .standard) = .ok [] ∧
      (f.isForwardedParam "a" = true ∨ "a" ∈ f.captures) ∧
      ∃ plan, planFunction (TypeModel.build .standard) {} f = .ok plan ∧ plan.excluded = false ∧
        ∃ s ∈ f.allSites, s.binding = some "a" ∧ ∃ d, plan.decisions.get? s.id = some d ∧ d.transfers = true := by
  refine ⟨⟨by decide +kernel, by decide +kernel, _, eq_ok_of_isOk (by decide +kernel), by decide +kernel,
    { id := 0, block := 0, index := 0, kind := .moveOut, binding := none,
      target := some (.argument "g" 0 .value false false), viaForward := true, tempType := some 2 },
    by decide +kernel, rfl,
    { kind := .constructByMove, transfers := true, reason := .temporary }, by decide +kernel, rfl⟩, ?_⟩
  intro f hf
  refine ⟨?_, ?_, ?_, _, eq_ok_of_isOk ?_, ?_,
    { id := 0, block := 0, index := 0, kind := .moveOut, binding := some "a",
      target := some (.argument "g" 0 .value false false) }, ?_, rfl,
    { kind := .constructByMove, transfers := true, reason := .lastUse }, ?_, rfl⟩
  all_goals
    revert f
    decide +kernel

end Function
end MovePlan
