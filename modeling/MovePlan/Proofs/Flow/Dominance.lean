import MovePlan.Proofs.Flow.Dominator

set_option autoImplicit false

namespace MovePlan
namespace Function
variable {f : Function}

theorem walk_firstVisit {p : BlockId → Prop} {a b c : BlockId} {es : List Edge} (hw : f.Walk a es b)
    (hc : .enter c ∈ f.trace a es) (hp : p c) : ∃ es₁ d, f.Walk a es₁ d ∧ p d ∧
      ∀ x, .enter x ∈ f.approach a es₁ → ¬ p x := by
  induction es using List.reverseRecOn generalizing b c with
  | nil =>
    rw [trace_nil, mem_eventsAt_enter] at hc
    exact ⟨[], a, rfl, hc ▸ hp, by simp⟩
  | append_singleton es e ih =>
    obtain ⟨q, hes, he, rfl⟩ := walk_snoc.1 hw
    by_cases hbefore : ∃ x, .enter x ∈ f.trace a es ∧ p x
    · obtain ⟨x, hx, hpx⟩ := hbefore
      exact ih hes hx hpx
    · have hcd : c = e.dst := by
        rw [trace_snoc, List.mem_append, mem_eventsAt_enter] at hc
        exact hc.resolve_left fun hc => hbefore ⟨c, hc, hp⟩
      refine ⟨es ++ [e], e.dst, hw, hcd ▸ hp, fun x hx hpx => hbefore ⟨x, ?_, hpx⟩⟩
      rwa [approach_snoc] at hx

theorem walk_lastVisit {p : BlockId → Prop} {a b c : BlockId} {es : List Edge} (hw : f.Walk a es b)
    (hc : .enter c ∈ f.trace a es) (hp : p c) : ∃ es₁ es₂ d, f.Walk a es₁ d ∧ f.Walk d es₂ b ∧
      p d ∧ ∀ e ∈ es₂, ¬ p e.dst := by
  induction es generalizing a c with
  | nil =>
    rw [trace_nil, mem_eventsAt_enter] at hc
    exact ⟨[], [], a, rfl, hw, hc ▸ hp, by simp⟩
  | cons e es ih =>
    by_cases hafter : ∃ x, .enter x ∈ f.trace e.dst es ∧ p x
    · obtain ⟨x, hx, hpx⟩ := hafter
      obtain ⟨es₁, es₂, d, h₁, h₂, hd, hlast⟩ := ih hw.2 hx hpx
      exact ⟨e :: es₁, es₂, d, ⟨hw.1, h₁⟩, h₂, hd, hlast⟩
    · have hca : c = a := by
        rw [trace_cons, List.mem_append, mem_eventsAt_enter] at hc
        exact hc.resolve_right fun hc => hafter ⟨c, hc, hp⟩
      refine ⟨[], e :: es, a, rfl, hw, hca ▸ hp, fun x hx hpx => hafter ⟨x.dst, ?_, hpx⟩⟩
      rw [enter_mem_trace]
      exact (List.mem_cons.1 hx).imp (fun h => by rw [h]) fun h => ⟨x, h, rfl⟩

theorem AlwaysThrough.refl (b : BlockId) : f.AlwaysThrough b b := by
  intro es hw
  rw [trace_eq_approach hw, List.mem_append, mem_eventsAt_enter]
  exact .inr rfl

theorem alwaysThrough_entry (b : BlockId) : f.AlwaysThrough f.entry b := fun _ _ =>
  enter_mem_trace.2 (.inl rfl)

theorem AlwaysThrough.antisymm {a b : BlockId} (hab : f.AlwaysThrough a b) (hba : f.AlwaysThrough b a)
    (hb : f.Reached b) : a = b := by
  obtain ⟨es, hw⟩ := hb.2
  obtain ⟨es₁, d, h₁, hd, hfirst⟩ := walk_firstVisit (p := fun x => x = a ∨ x = b) hw (hab es hw) (.inl rfl)
  have halone : ∀ x, x = a ∨ x = b → .enter x ∈ f.trace f.entry es₁ → x = d := by
    intro x hx hmem
    rw [trace_eq_approach h₁, List.mem_append, mem_eventsAt_enter] at hmem
    exact hmem.resolve_left fun hmem => hfirst x hmem hx
  rcases hd with rfl | rfl
  · exact (halone b (.inr rfl) (hba es₁ h₁)).symm
  · exact halone a (.inl rfl) (hab es₁ h₁)

def StrictlyDominates (f : Function) (a b : BlockId) : Prop := a ≠ b ∧ f.AlwaysThrough a b

/-- A strict dominator that all other strict dominators dominate. -/
structure ClosestDominator (f : Function) (d b : BlockId) : Prop where
  strict : f.StrictlyDominates d b
  below : ∀ c, f.StrictlyDominates c b → c ≠ d → f.AlwaysThrough c d

theorem ClosestDominator.unique {b c d : BlockId} (hb : f.Reached b) (hc : f.ClosestDominator c b)
    (hd : f.ClosestDominator d b) : c = d := by
  by_contra hne
  have hcd : f.AlwaysThrough c d := hd.below c hc.strict hne
  have hdc : f.AlwaysThrough d c := hc.below d hd.strict (Ne.symm hne)
  exact hne (hcd.antisymm hdc (hd.strict.2.reached hb))

/-- Of the strict dominators of a block the one that a walk to it comes to last is the closest. -/
theorem exists_closestDominator {b : BlockId} (hb : f.Reached b) (hne : b ≠ f.entry) :
    ∃ d, f.ClosestDominator d b := by
  obtain ⟨es, hw⟩ := hb.2
  have hentry : f.StrictlyDominates f.entry b := ⟨Ne.symm hne, alwaysThrough_entry b⟩
  obtain ⟨es₁, es₂, d, h₁, h₂, hd, hlast⟩ :=
    walk_lastVisit (p := fun x => f.StrictlyDominates x b) hw (alwaysThrough_entry b es hw) hentry
  refine ⟨d, hd, fun c hc _ es₃ h₃ => ?_⟩
  -- any walk to `d` can go on to `b` along edges that come to no strict dominator any more
  have hthrough := hc.2 (es₃ ++ es₂) (walk_append.2 ⟨d, h₃, h₂⟩)
  rw [enter_mem_trace] at hthrough ⊢
  refine hthrough.imp_right ?_
  rintro ⟨e, he, rfl⟩
  exact ⟨e, (List.mem_append.1 he).resolve_right fun he => hlast e he hc, rfl⟩

theorem mem_strict {b c : BlockId} (hb : f.Reached b) :
    c ∈ f.dominators.strict b ↔ f.StrictlyDominates c b := by
  rw [Dominators.strict, List.mem_filter, decide_eq_true_eq, StrictlyDominates, ← dominates_iff hb,
    Dominators.dominates, List.contains_eq_mem, decide_eq_true_eq, and_comm]

theorem dominators_entry : f.dominators.entry = f.entry := rfl

theorem immediate?_candidate {b c d : BlockId} (hb : f.Reached b) (hd : f.ClosestDominator d b)
    (hc : f.StrictlyDominates c b) :
    (((f.dominators.strict b).map fun e => (e, f.dominators.of e)).all fun e =>
      decide (c = e.1) || !e.2.contains c) = true ↔ c = d := by
  have hdom : ∀ e, f.StrictlyDominates e b →
      ((f.dominators.of e).contains c = true ↔ f.AlwaysThrough c e) :=
    fun e he => dominates_iff (he.2.reached hb)
  rw [List.all_eq_true, List.forall_mem_map]
  constructor
  · intro hall
    have hmem := hall d ((mem_strict hb).2 hd.strict)
    rw [Bool.or_eq_true, decide_eq_true_eq, Bool.not_eq_true', ← Bool.not_eq_true, hdom d hd.strict] at hmem
    by_contra hne
    exact (hmem.resolve_left hne) (hd.below c hc hne)
  · rintro rfl e he
    have hstrict := (mem_strict hb).1 he
    rw [Bool.or_eq_true, decide_eq_true_eq, Bool.not_eq_true', ← Bool.not_eq_true, hdom e hstrict]
    by_cases heq : c = e
    · exact .inl heq
    · refine .inr fun hce => heq (hce.antisymm (hd.below e hstrict (Ne.symm heq)) (hstrict.2.reached hb))

theorem immediate?_eq {b d : BlockId} (hb : f.Reached b) (hne : b ≠ f.entry)
    (hd : f.ClosestDominator d b) : f.dominators.immediate? b = some d := by
  rw [Dominators.immediate?, dominators_entry, if_neg hne]
  have hmem : ∀ c, c ∈ sortInts (f.dominators.strict b) ↔ f.StrictlyDominates c b := fun c => by
    rw [sortInts, mem_sortBy, mem_strict hb]
  cases hfound : (sortInts (f.dominators.strict b)).find? fun c =>
      ((f.dominators.strict b).map fun e => (e, f.dominators.of e)).all fun e =>
        c = e.1 || !e.2.contains c with
  | none =>
    have hnot := List.find?_eq_none.1 hfound d ((hmem d).2 hd.strict)
    exact absurd ((immediate?_candidate hb hd hd.strict).2 rfl) hnot
  | some c =>
    have hc := (hmem c).1 (List.mem_of_find?_eq_some hfound)
    have hlast := List.find?_some hfound
    exact congrArg some ((immediate?_candidate hb hd hc).1 hlast)

theorem immediate?_unreached {b : BlockId} (hblock : f.hasBlock b = true) (hb : ¬ f.Reached b) :
    f.dominators.immediate? b = none := by
  have hstrict : f.dominators.strict b = [] := by
    rw [Dominators.strict, of_unreached hblock hb]
    simp
  rw [Dominators.immediate?, hstrict]
  simp [sortInts, sortBy]

/-- The positions of the sites of a block. -/
def positionsAt (f : Function) (id : BlockId) : List (BlockId × Int) :=
  (List.range (f.sitesAt id).length).map fun (i : ℕ) => (id, (i : Int))

/-- The positions that are executed in the blocks that events come into. -/
def executed (f : Function) (events : List TraceEvent) : List (BlockId × Int) :=
  events.flatMap fun
    | .enter id => f.positionsAt id
    | .pass _ => []

/-- The site stands at the position that it claims. -/
def StandsThere (f : Function) (s : Site) : Prop :=
  ∃ i : ℕ, s.index = i ∧ (f.sitesAt s.block)[i]? = some s

theorem mem_positionsAt {id : BlockId} {p : BlockId × Int} :
    p ∈ f.positionsAt id ↔ p.1 = id ∧ ∃ i < (f.sitesAt id).length, p.2 = (i : ℕ) := by
  obtain ⟨x, j⟩ := p
  simp only [positionsAt, List.mem_map, List.mem_range, Prod.mk.injEq]
  constructor
  · rintro ⟨i, hi, rfl, rfl⟩
    exact ⟨rfl, i, hi, rfl⟩
  · rintro ⟨rfl, i, hi, rfl⟩
    exact ⟨i, hi, rfl, rfl⟩

theorem StandsThere.mem_positionsAt {s : Site} (h : f.StandsThere s) :
    (s.block, s.index) ∈ f.positionsAt s.block := by
  obtain ⟨i, hindex, hi⟩ := h
  exact Function.mem_positionsAt.2 ⟨rfl, i, (List.getElem?_eq_some_iff.1 hi).1, hindex⟩

theorem StandsThere.unique {s t : Site} (hs : f.StandsThere s) (ht : f.StandsThere t)
    (hblock : s.block = t.block) (hindex : s.index = t.index) : s = t := by
  obtain ⟨i, hsi, hi⟩ := hs
  obtain ⟨j, htj, hj⟩ := ht
  have hij : i = j := by
    rw [hsi, htj] at hindex
    exact_mod_cast hindex
  rw [hblock, hij, hj] at hi
  exact (Option.some.inj hi).symm

theorem mem_of_positionsAt {id : BlockId} {i : Int} {pre post : List (BlockId × Int)}
    (h : f.positionsAt id = pre ++ (id, i) :: post) {p : BlockId × Int} :
    p ∈ pre ↔ p ∈ f.positionsAt id ∧ p.2 < i := by
  have hsorted : (f.positionsAt id).Pairwise fun p q => p.2 < q.2 := by
    rw [positionsAt, List.pairwise_map]
    exact List.pairwise_lt_range.imp Int.ofNat_lt.2
  rw [h, List.pairwise_append, List.pairwise_cons] at hsorted
  obtain ⟨-, ⟨hpost, -⟩, hpre⟩ := hsorted
  constructor
  · intro hp
    exact ⟨h ▸ List.mem_append_left _ hp, hpre p hp (id, i) List.mem_cons_self⟩
  · rintro ⟨hp, hlt⟩
    rw [h, List.mem_append, List.mem_cons] at hp
    rcases hp with hp | rfl | hp
    · exact hp
    · exact absurd hlt (lt_irrefl _)
    · exact absurd hlt (hpost p hp).asymm

theorem executed_append (xs ys : List TraceEvent) :
    f.executed (xs ++ ys) = f.executed xs ++ f.executed ys := List.flatMap_append

theorem executed_eventsAt (id : BlockId) : f.executed (f.eventsAt id) = f.positionsAt id := by
  rw [executed, eventsAt, List.flatMap_cons, List.flatMap_map]
  simp

theorem mem_executed {events : List TraceEvent} {p : BlockId × Int} :
    p ∈ f.executed events ↔ .enter p.1 ∈ events ∧ p ∈ f.positionsAt p.1 := by
  rw [executed, List.mem_flatMap]
  constructor
  · rintro ⟨x, hx, hp⟩
    cases x with
    | enter id =>
      obtain rfl := (mem_positionsAt.1 hp).1
      exact ⟨hx, hp⟩
    | pass s => cases hp
  · rintro ⟨hx, hp⟩
    exact ⟨_, hx, hp⟩

theorem executed_trace {a b : BlockId} {es : List Edge} (hw : f.Walk a es b) :
    f.executed (f.trace a es) = f.executed (f.approach a es) ++ f.positionsAt b := by
  rw [trace_eq_approach hw, executed_append, executed_eventsAt]

theorem StandsThere.executed {a : BlockId} {es : List Edge} {t : Site} (ht : f.StandsThere t)
    (hw : f.Walk a es t.block) : ∃ pre post,
      f.positionsAt t.block = pre ++ (t.block, t.index) :: post ∧
      f.executed (f.trace a es) = (f.executed (f.approach a es) ++ pre) ++ (t.block, t.index) :: post := by
  obtain ⟨pre, post, hpos⟩ := List.append_of_mem ht.mem_positionsAt
  exact ⟨pre, post, hpos, by rw [executed_trace hw, hpos, List.append_assoc]⟩

theorem executed_split {a b : BlockId} {es : List Edge} (hw : f.Walk a es b) {id : BlockId} {i : Int}
    {before after : List (BlockId × Int)} (h : f.executed (f.trace a es) = before ++ (id, i) :: after) :
    ∃ es₁ pre post, f.Walk a es₁ id ∧ f.positionsAt id = pre ++ (id, i) :: post ∧
      before = f.executed (f.approach a es₁) ++ pre := by
  -- the last block is split off: the position stands there, or the shorter walk executes it
  induction es using List.reverseRecOn generalizing b after with
  | nil =>
    rw [trace_nil, executed_eventsAt] at h
    obtain rfl : id = a := (mem_positionsAt.1 (by rw [h]; simp : (id, i) ∈ f.positionsAt a)).1
    exact ⟨[], before, after, rfl, h, rfl⟩
  | append_singleton es e ih =>
    obtain ⟨c, hes, he, rfl⟩ := walk_snoc.1 hw
    have here : ∀ {pre : List (BlockId × Int)}, f.positionsAt e.dst = pre ++ (id, i) :: after →
        before = f.executed (f.trace a es) ++ pre → ∃ es₁ pre post, f.Walk a es₁ id ∧
          f.positionsAt id = pre ++ (id, i) :: post ∧ before = f.executed (f.approach a es₁) ++ pre := by
      intro pre hpos hbefore
      obtain rfl : id = e.dst := (mem_positionsAt.1 (by rw [hpos]; simp : (id, i) ∈ f.positionsAt e.dst)).1
      exact ⟨es ++ [e], pre, after, hw, hpos, by rw [approach_snoc, hbefore]⟩
    rw [trace_snoc, executed_append, executed_eventsAt] at h
    rcases List.append_eq_append_iff.1 h with ⟨mid, hbefore, hpos⟩ | ⟨mid, hearly, hlate⟩
    · exact here hpos hbefore
    · cases mid with
      | nil =>
        rw [List.append_nil] at hearly
        have hpos : f.positionsAt e.dst = [] ++ (id, i) :: after := hlate.symm
        exact here hpos (by rw [hearly, List.append_nil])
      | cons p mid =>
        rw [List.cons_append, List.cons.injEq] at hlate
        obtain ⟨rfl, -⟩ := hlate
        exact ih hes hearly

/-- On every walk from the entry the first site has been executed when the second one is. -/
def ExecutesBefore (f : Function) (s t : Site) : Prop :=
  ∀ es c before after, f.Walk f.entry es c →
    f.executed (f.trace f.entry es) = before ++ (t.block, t.index) :: after →
      (s.block, s.index) ∈ before ∨ s = t

theorem executesBefore_iff_index {s t : Site} (hs : f.StandsThere s) (ht : f.StandsThere t)
    (hr : f.Reached t.block) (hblock : s.block = t.block) : f.ExecutesBefore s t ↔ s.index ≤ t.index := by
  constructor
  · intro h
    obtain ⟨es, hw⟩ := hr.2
    obtain ⟨es₁, d, h₁, rfl, hfirst⟩ :=
      walk_firstVisit (p := (· = t.block)) hw (AlwaysThrough.refl _ es hw) rfl
    obtain ⟨pre, post, hpos, hexec⟩ := ht.executed h₁
    rcases h es₁ t.block _ _ h₁ hexec with hbefore | rfl
    · rcases List.mem_append.1 hbefore with hearly | hpre
      · exact absurd hblock (hfirst s.block (mem_executed.1 hearly).1)
      · exact ((mem_of_positionsAt hpos).1 hpre).2.le
    · exact le_refl _
  · intro hle es c before after hw hexec
    obtain ⟨es₁, pre, post, -, hpos, rfl⟩ := executed_split hw hexec
    rcases hle.eq_or_lt with heq | hlt
    · exact .inr (hs.unique ht hblock heq)
    · refine .inl (List.mem_append_right _ ((mem_of_positionsAt hpos).2 ⟨?_, hlt⟩))
      exact hblock ▸ hs.mem_positionsAt

theorem executesBefore_iff_dominates {s t : Site} (hs : f.StandsThere s) (ht : f.StandsThere t)
    (hblock : s.block ≠ t.block) : f.ExecutesBefore s t ↔ f.AlwaysThrough s.block t.block := by
  constructor
  · intro h es hw
    obtain ⟨pre, post, hpos, hexec⟩ := ht.executed hw
    rw [trace_eq_approach hw, List.mem_append]
    rcases h es t.block _ _ hw hexec with hbefore | rfl
    · rcases List.mem_append.1 hbefore with hearly | hpre
      · exact .inl (mem_executed.1 hearly).1
      · exact absurd (mem_positionsAt.1 ((mem_of_positionsAt hpos).1 hpre).1).1 hblock
    · exact absurd rfl hblock
  · intro h es c before after hw hexec
    obtain ⟨es₁, pre, post, h₁, -, rfl⟩ := executed_split hw hexec
    have hthrough := h es₁ h₁
    rw [trace_eq_approach h₁, List.mem_append, mem_eventsAt_enter] at hthrough
    refine .inl (List.mem_append_left _ (mem_executed.2 ⟨hthrough.resolve_right hblock, ?_⟩))
    exact hs.mem_positionsAt

theorem siteDominates_iff {s t : Site} (hs : f.StandsThere s) (ht : f.StandsThere t)
    (hr : f.Reached t.block) : f.dominators.siteDominates s t = true ↔ f.ExecutesBefore s t := by
  rw [Dominators.siteDominates]
  split
  next hblock => rw [decide_eq_true_eq, executesBefore_iff_index hs ht hr hblock]
  next hblock => rw [dominates_iff hr, executesBefore_iff_dominates hs ht hblock]

/-- The dominators are exact: of blocks, of closest blocks and of sites. An unreached block has no
dominator but itself. -/
theorem dominators_exact (f : Function) :
    (∀ a b, f.Reached b → (f.dominators.dominates a b = true ↔ f.AlwaysThrough a b)) ∧
    (∀ a b, f.hasBlock b = true → ¬ f.Reached b → (f.dominators.dominates a b = true ↔ a = b)) ∧
    f.dominators.immediate? f.entry = none ∧
    (∀ b, f.hasBlock b = true → ¬ f.Reached b → f.dominators.immediate? b = none) ∧
    (∀ b, f.Reached b → b ≠ f.entry → ∃ d, f.dominators.immediate? b = some d ∧
      f.ClosestDominator d b ∧ ∀ c, f.ClosestDominator c b → c = d) ∧
    ∀ s t, f.StandsThere s → f.StandsThere t → f.Reached t.block →
      (f.dominators.siteDominates s t = true ↔ f.ExecutesBefore s t) := by
  refine ⟨fun a b => dominates_iff, fun a b hblock hb => ?_, ?_, fun b => immediate?_unreached,
    fun b hb hne => ?_, fun s t => siteDominates_iff⟩
  · rw [Dominators.dominates, of_unreached hblock hb]
    simp
  · rw [Dominators.immediate?, dominators_entry, if_pos rfl]
  · obtain ⟨d, hd⟩ := exists_closestDominator hb hne
    exact ⟨d, immediate?_eq hb hne hd, hd, fun c hc => hc.unique hb hd⟩

end Function
end MovePlan
