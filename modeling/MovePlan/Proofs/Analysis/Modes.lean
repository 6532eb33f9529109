import MovePlan.Proofs.Analysis.LastUse

set_option autoImplicit false

namespace MovePlan

namespace Function
variable {f : Function} {m : TypeModel} {mode mode' : LastUseMode} {facts facts' : LastUseFacts}
  {name : String} {b : Binding} {s : Site}

theorem lastWrite_facts (wf : f.WellFormed) (h : f.lastUseFacts m mode = .ok facts)
    (hs : s ∈ f.allSites) (hn : s.binding = some name) (hb : f.binding? name = some b)
    (ha : s.isAccess = true) {γ : Type} (g : AccessFact → Option γ) :
    ∃ blocked, m.fieldBlock? b.type s = .ok blocked ∧
      lastWrite s.id (facts.accesses.filterMap fun a => (g a).map fun x => (a.site, x)) =
        g (f.accessFact mode name b s blocked) := by
  obtain ⟨blocked, hblocked, hfact⟩ := fact?_eq wf h hs hn hb ha
  refine ⟨blocked, hblocked, ?_⟩
  have hown : f.accessFact mode name b s blocked ∈ facts.accesses :=
    (mem_accesses h).2 ⟨s, hs, name, b, blocked, hn, hb, ha, hblocked, rfl⟩
  have hentry : ∀ x, (s.id, x) ∈ facts.accesses.filterMap (fun a => (g a).map fun x => (a.site, x)) →
      g (f.accessFact mode name b s blocked) = some x := by
    intro x hx
    obtain ⟨a, hmem, hax⟩ := List.mem_filterMap.1 hx
    obtain ⟨y, hy, hpair⟩ := Option.map_eq_some_iff.1 hax
    rw [Prod.mk.injEq] at hpair
    obtain ⟨hid, rfl⟩ := hpair
    obtain ⟨t, ht, name', b', blocked', hn', hb', _, hblocked', rfl⟩ := (mem_accesses h).1 hmem
    obtain rfl := wf.id_inj ht hs hid
    obtain rfl : name = name' := Option.some.inj (hn.symm.trans hn')
    obtain rfl : b = b' := Option.some.inj (hb.symm.trans hb')
    obtain rfl : blocked = blocked' := Except.ok.inj (hblocked.symm.trans hblocked')
    exact hy
  cases hg : g (f.accessFact mode name b s blocked) with
  | some x =>
    refine lastWrite_eq_some (List.mem_filterMap.2 ⟨_, hown, by rw [hg]; rfl⟩) fun w hw => ?_
    exact (Option.some.inj (hg.symm.trans (hentry w hw))).symm
  | none =>
    cases hw : lastWrite s.id (facts.accesses.filterMap fun a => (g a).map fun x => (a.site, x)) with
    | none => rfl
    | some x =>
      rw [hg] at hentry
      exact absurd (hentry x (mem_of_lastWrite hw)) (by simp)

theorem fieldBlocked?_eq (wf : f.WellFormed) (h : f.lastUseFacts m mode = .ok facts)
    (hs : s ∈ f.allSites) (hn : s.binding = some name) (hb : f.binding? name = some b)
    (ha : s.isAccess = true) :
    ∃ blocked, m.fieldBlock? b.type s = .ok blocked ∧ facts.fieldBlocked? s.id = blocked :=
  lastWrite_facts wf h hs hn hb ha AccessFact.fieldBlocked

end Function
end MovePlan
