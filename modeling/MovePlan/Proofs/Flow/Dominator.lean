import MovePlan.Flow.Dominator
import MovePlan.Proofs.Flow.BlockGraph

set_option autoImplicit false

namespace MovePlan
namespace Function
variable {f : Function}

def AlwaysThrough (f : Function) (a b : BlockId) : Prop :=
  ∀ es, f.Walk f.entry es b → .enter a ∈ f.trace f.entry es

theorem AlwaysThrough.reached {a b : BlockId} (h : f.AlwaysThrough a b) (hb : f.Reached b) :
    f.Reached a := by
  obtain ⟨es, hw⟩ := hb.2
  exact .of_enter hw hb.1 (h es hw)

theorem mem_reachedPreds_of_walk {p : BlockId} {es : List Edge} {e : Edge} (hw : f.Walk f.entry es p)
    (he : e ∈ f.edgesAt p) (hb : f.hasBlock e.dst = true) : p ∈ f.graph.reachedPreds e.dst :=
  mem_reachedPreds.2 ⟨⟨hb, mem_successors.2 ⟨e, he, rfl⟩⟩, hasBlock_of_mem_edgesAt he, es, hw⟩

theorem reachedPreds_ne_nil {b : BlockId} (hb : f.Reached b) (hne : b ≠ f.entry) :
    f.graph.reachedPreds b ≠ [] := by
  obtain ⟨es, hw⟩ := hb.2
  rcases List.eq_nil_or_concat es with rfl | ⟨es, e, rfl⟩
  · exact absurd hw.symm hne
  · rw [List.concat_eq_append] at hw
    obtain ⟨p, hes, he, rfl⟩ := walk_snoc.1 hw
    exact List.ne_nil_of_mem (mem_reachedPreds_of_walk hes he hb.1)

theorem dominatorStep_eq {b : BlockId} (hb : f.Reached b) (hne : b ≠ f.entry)
    (sets : BlockId → List BlockId) :
    dominatorStep f.entry f.graph sets b = f.graph.order.filter fun a =>
      a = b || ((f.graph.reachedPreds b).map sets).all (·.contains a) := by
  have hr : f.graph.reached.contains b = true := reached_contains.2 hb
  have hp : (f.graph.reachedPreds b).isEmpty = false := by
    rw [List.isEmpty_eq_false_iff]
    exact reachedPreds_ne_nil hb hne
  simp only [dominatorStep, hne, ↓reduceIte, hr, hp, Bool.not_true, Bool.or_self, Bool.false_eq_true]

theorem dominatorStep_unreached {b : BlockId} (hb : ¬ f.Reached b) (sets : BlockId → List BlockId) :
    dominatorStep f.entry f.graph sets b = [b] := by
  simp only [dominatorStep, reached_contains_eq_false.2 hb, Bool.not_false, Bool.true_or, ↓reduceIte,
    ite_self]

theorem mem_dominatorStep {a b : BlockId} (hb : f.Reached b)
    (hne : b ≠ f.entry) {sets : BlockId → List BlockId} :
    a ∈ dominatorStep f.entry f.graph sets b ↔
      f.hasBlock a = true ∧ (a = b ∨ ∀ p ∈ f.graph.reachedPreds b, a ∈ sets p) := by
  rw [dominatorStep_eq hb hne, List.mem_filter, graph_order, mem_orderedBlocks]
  simp

structure Shrinking (f : Function) (t : ValueTable BlockId (List BlockId)) : Prop where
  keys : t.keys = f.graph.order
  entry : f.hasBlock f.entry = true → t.at? [] f.entry = [f.entry]
  part : ∀ b, f.Reached b → b ≠ f.entry → ∃ p, t.at? [] b = f.graph.order.filter p
  shrinks : ∀ b, f.Reached b → b ≠ f.entry →
    ∀ a ∈ dominatorStep f.entry f.graph (t.at? []) b, a ∈ t.at? [] b

theorem Shrinking.set {t : ValueTable BlockId (List BlockId)} (h : f.Shrinking t)
    {k : BlockId} (hk : k ∈ f.graph.order) :
    f.Shrinking (t.set k (dominatorStep f.entry f.graph (t.at? []) k)) := by
  have hkey : k ∈ t.keys := h.keys ▸ hk
  have hat : ∀ j, (t.set k (dominatorStep f.entry f.graph (t.at? []) k)).at? [] j =
      if j = k then dominatorStep f.entry f.graph (t.at? []) k else t.at? [] j :=
    fun j => ValueTable.at?_set [] t k j _ hkey
  -- no set of a reached block gains a member
  have hless : ∀ p, f.Reached p → ∀ a,
      a ∈ (t.set k (dominatorStep f.entry f.graph (t.at? []) k)).at? [] p → a ∈ t.at? [] p := by
    intro p hp a ha
    rw [hat] at ha
    split at ha
    next hpk =>
      subst hpk
      by_cases hentry : p = f.entry
      · rw [dominatorStep, if_pos hentry] at ha
        rw [hentry, h.entry (hentry ▸ hp.1), ← hentry]
        exact ha
      · exact h.shrinks p hp hentry a ha
    next => exact ha
  refine ⟨by rw [ValueTable.keys_set, h.keys], fun he => ?_, fun b hb hne => ?_,
    fun b hb hne a ha => ?_⟩
  · rw [hat]
    split
    next hek => rw [dominatorStep, if_pos hek.symm, hek]
    next => exact h.entry he
  · rw [hat]
    split
    next hbk =>
      subst hbk
      exact ⟨_, dominatorStep_eq hb hne _⟩
    next => exact h.part b hb hne
  · have hold : a ∈ dominatorStep f.entry f.graph (t.at? []) b := by
      obtain ⟨hblock, hor⟩ := (mem_dominatorStep hb hne).1 ha
      refine (mem_dominatorStep hb hne).2 ⟨hblock, hor.imp_right fun hall p hp => ?_⟩
      exact hless p (mem_reachedPreds.1 hp).2 a (hall p hp)
    rw [hat]
    split
    next hbk =>
      subst hbk
      exact hold
    next => exact h.shrinks b hb hne a hold

theorem filter_sublist_filter {p q : BlockId → Bool} {bs : List BlockId}
    (h : ∀ a ∈ bs.filter p, a ∈ bs.filter q) : (bs.filter p).Sublist (bs.filter q) := by
  have heq : bs.filter p = (bs.filter q).filter p := by
    rw [List.filter_filter]
    refine List.filter_congr fun a ha => ?_
    cases hp : p a with
    | false => rfl
    | true =>
      have hq := (List.mem_filter.1 (h a (List.mem_filter.2 ⟨ha, hp⟩))).2
      rw [hq, Bool.and_self]
  rw [heq]
  exact List.filter_sublist

/-- What is left to lose: the members of a reached block's set; the set of an unreached block is
replaced once. -/
def dominatorWeight (f : Function) (b : BlockId) (set : List BlockId) : ℕ :=
  if b = f.entry then 0
  else if f.graph.reached.contains b then set.length
  else if set = [b] then 0 else 1

theorem Shrinking.lower {t : ValueTable BlockId (List BlockId)} (h : f.Shrinking t) {k : BlockId}
    (hk : k ∈ f.graph.order) :
    dominatorStep f.entry f.graph (t.at? []) k = t.at? [] k ∨
      f.dominatorWeight k (dominatorStep f.entry f.graph (t.at? []) k) <
        f.dominatorWeight k (t.at? [] k) := by
  by_cases hentry : k = f.entry
  · left
    rw [graph_order, mem_orderedBlocks, hentry] at hk
    rw [dominatorStep, if_pos hentry, hentry, h.entry hk]
  by_cases hr : f.Reached k
  · obtain ⟨p, hp⟩ := h.part k hr hentry
    have hsub : (dominatorStep f.entry f.graph (t.at? []) k).Sublist (t.at? [] k) := by
      have hmem := h.shrinks k hr hentry
      rw [hp, dominatorStep_eq hr hentry] at hmem ⊢
      exact filter_sublist_filter hmem
    rcases hsub.length_le.eq_or_lt with heq | hlt
    · exact .inl (hsub.eq_of_length heq)
    · right
      rw [dominatorWeight, dominatorWeight, if_neg hentry, if_neg hentry,
        if_pos (reached_contains.2 hr), if_pos (reached_contains.2 hr)]
      exact hlt
  · rw [dominatorStep_unreached hr]
    by_cases hk : t.at? [] k = [k]
    · exact .inl hk.symm
    · right
      rw [dominatorWeight, dominatorWeight, if_neg hentry, if_neg hentry, reached_contains_eq_false.2 hr,
        if_pos rfl, if_neg hk]
      simp

def dominatorStart (f : Function) : ValueTable BlockId (List BlockId) :=
  .fill f.graph.order fun b => if b = f.entry then [b] else f.graph.order.filter f.graph.reached.contains

theorem dominatorStart_at {b : BlockId} (hb : f.hasBlock b = true) :
    f.dominatorStart.at? [] b =
      if b = f.entry then [b] else f.graph.order.filter f.graph.reached.contains := by
  rw [dominatorStart, ValueTable.at?_fill, graph_order, if_pos (mem_orderedBlocks.2 hb)]

theorem dominatorStart_reached {a b : BlockId} (hb : f.Reached b) (h : a ∈ f.dominatorStart.at? [] b) :
    f.Reached a := by
  rw [dominatorStart_at hb.1] at h
  split at h
  next he =>
    rw [List.mem_singleton] at h
    exact h ▸ hb
  next => exact reached_contains.1 (List.mem_filter.1 h).2

theorem shrinking_start : f.Shrinking f.dominatorStart := by
  refine ⟨ValueTable.keys_fill _ _, fun he => ?_, fun b hb hne => ?_, fun b hb hne a ha => ?_⟩
  · rw [dominatorStart_at he, if_pos rfl]
  · exact ⟨_, by rw [dominatorStart_at hb.1, if_neg hne]⟩
  · obtain ⟨hblock, hor⟩ := (mem_dominatorStep hb hne).1 ha
    have hr : f.Reached a := by
      rcases hor with rfl | hall
      · exact hb
      · obtain ⟨p, hp⟩ := List.exists_mem_of_ne_nil _ (reachedPreds_ne_nil hb hne)
        exact dominatorStart_reached (mem_reachedPreds.1 hp).2 (hall p hp)
    rw [dominatorStart_at hb.1, if_neg hne, List.mem_filter, graph_order, mem_orderedBlocks]
    exact ⟨hblock, reached_contains.2 hr⟩

/-- The sets that the iteration ends with. -/
def dominatorTable (f : Function) : ValueTable BlockId (List BlockId) :=
  f.dominatorStart.settle [] (dominatorStep f.entry f.graph) f.graph.order
    (f.graph.order.length * f.graph.order.length + 1)

theorem of_eq {b : BlockId} (hb : f.hasBlock b = true) :
    f.dominators.of b = f.dominatorTable.at? [] b := by
  rw [Dominators.of, dominators]
  by_cases he : f.hasBlock f.entry = true
  · simp only [he, ↓reduceIte]
    rfl
  · have hne : f.entry ≠ b := fun h => he (h ▸ hb)
    simp only [he, Bool.false_eq_true, ↓reduceIte, ValueTable.at?, hne]
    rfl

theorem weigh_dominatorStart :
    f.dominatorStart.weigh f.dominatorWeight ≤ f.graph.order.length * f.graph.order.length := by
  have hle : f.dominatorStart.weigh f.dominatorWeight ≤
      f.graph.order.length * f.dominatorStart.keys.length := by
    refine ValueTable.weigh_le fun e he => ?_
    obtain ⟨b, hmem, rfl⟩ := List.mem_map.1 he
    have hpos : 0 < f.graph.order.length := List.length_pos_of_mem hmem
    simp only [dominatorWeight]
    split
    · exact Nat.zero_le _
    · split
      · exact List.length_filter_le _ _
      · split <;> omega
  rwa [shrinking_start.keys] at hle

theorem dominators_rounds (f : Function) : ∃ n ≤ f.graph.order.length * f.graph.order.length,
    ValueTable.Rounds [] (dominatorStep f.entry f.graph) f.graph.order f.dominatorStart n
      f.dominatorTable := by
  obtain ⟨n, hn, hrounds⟩ := ValueTable.rounds_settle [] (dominatorStep f.entry f.graph)
    (fun _ (h : f.Shrinking _) _ hk => h.keys ▸ hk) (fun _ _ hk h => h.set hk)
    (fun _ _ hk h => h.lower hk) nodup_orderedBlocks _ shrinking_start
    (Nat.lt_succ_of_le weigh_dominatorStart)
  exact ⟨n, hn.trans weigh_dominatorStart, hrounds⟩

theorem dominatorStep_congr {sets sets' : BlockId → List BlockId}
    (h : ∀ p, f.hasBlock p = true → sets p = sets' p) (b : BlockId) :
    dominatorStep f.entry f.graph sets b = dominatorStep f.entry f.graph sets' b := by
  have hmap : (f.graph.reachedPreds b).map sets = (f.graph.reachedPreds b).map sets' :=
    List.map_congr_left fun p hp => h p (mem_reachedPreds.1 hp).2.1
  simp only [dominatorStep, hmap]

theorem dominators_fixed {b : BlockId} (hb : f.hasBlock b = true) :
    f.dominators.of b = dominatorStep f.entry f.graph f.dominators.of b := by
  obtain ⟨_, _, hrounds⟩ := f.dominators_rounds
  have hkeys : ∀ k ∈ f.graph.order, k ∈ f.dominatorStart.keys := fun k hk => shrinking_start.keys ▸ hk
  rw [dominatorStep_congr (fun p hp => of_eq hp), of_eq hb]
  exact hrounds.fixed hkeys nodup_orderedBlocks b (mem_orderedBlocks.2 hb)

theorem of_unreached {b : BlockId} (hblock : f.hasBlock b = true) (hb : ¬ f.Reached b) :
    f.dominators.of b = [b] := by
  rw [dominators_fixed hblock, dominatorStep_unreached hb]

theorem mem_of_entry {a : BlockId} (he : f.hasBlock f.entry = true) :
    a ∈ f.dominators.of f.entry ↔ a = f.entry := by
  rw [dominators_fixed he, dominatorStep, if_pos rfl, List.mem_singleton]

theorem enter_of_mem_dominators {a b : BlockId} {es : List Edge} (hw : f.Walk f.entry es b)
    (hb : f.hasBlock b = true) (h : a ∈ f.dominators.of b) : .enter a ∈ f.trace f.entry es := by
  rw [enter_mem_trace]
  induction es using List.reverseRecOn generalizing b with
  | nil =>
    rw [walk_nil] at hw
    subst hw
    exact .inl ((mem_of_entry hb).1 h)
  | append_singleton es e ih =>
    obtain ⟨p, hes, he, rfl⟩ := walk_snoc.1 hw
    by_cases hentry : e.dst = f.entry
    · rw [hentry] at h hb
      exact .inl ((mem_of_entry hb).1 h)
    rw [dominators_fixed hb] at h
    rcases ((mem_dominatorStep ⟨hb, _, hw⟩ hentry).1 h).2 with rfl | hall
    · exact .inr ⟨e, by simp, rfl⟩
    · have hp : p ∈ f.graph.reachedPreds e.dst := mem_reachedPreds_of_walk hes he hb
      refine (ih hes (hasBlock_of_mem_edgesAt he) (hall p hp)).imp_right ?_
      rintro ⟨x, hx, hd⟩
      exact ⟨x, by simp [hx], hd⟩

theorem mem_dominators_of_always {a b : BlockId} (hb : f.Reached b) (h : f.AlwaysThrough a b) :
    a ∈ f.dominators.of b := by
  let Q : ValueTable BlockId (List BlockId) → Prop := fun t => t.keys = f.graph.order ∧
    ∀ a b, f.Reached b → f.AlwaysThrough a b → a ∈ t.at? [] b
  have honly : ∀ a, f.AlwaysThrough a f.entry → a = f.entry := by
    intro a ha
    rcases enter_mem_trace.1 (ha [] rfl) with rfl | ⟨e, he, _⟩
    · rfl
    · simp at he
  have hstart : Q f.dominatorStart := by
    refine ⟨shrinking_start.keys, fun a b hb h => ?_⟩
    rw [dominatorStart_at hb.1]
    split
    next he =>
      subst he
      rw [List.mem_singleton, honly a h]
    next =>
      have ha := h.reached hb
      rw [List.mem_filter, graph_order, mem_orderedBlocks]
      exact ⟨ha.1, reached_contains.2 ha⟩
  have step : ∀ t, ∀ k ∈ f.graph.order, Q t →
      Q (t.set k (dominatorStep f.entry f.graph (t.at? []) k)) := by
    intro t k hk ht
    refine ⟨by rw [ValueTable.keys_set, ht.1], fun a b hb h => ?_⟩
    rw [ValueTable.at?_set [] t k b _ (ht.1 ▸ hk)]
    split
    next hbk =>
      subst hbk
      by_cases hentry : b = f.entry
      · subst hentry
        rw [dominatorStep, if_pos rfl, List.mem_singleton, honly a h]
      refine (mem_dominatorStep hb hentry).2 ⟨(h.reached hb).1, ?_⟩
      by_cases hab : a = b
      · exact .inl hab
      refine .inr fun p hp => ?_
      obtain ⟨⟨_, hsucc⟩, hr⟩ := mem_reachedPreds.1 hp
      obtain ⟨e, he, rfl⟩ := mem_successors.1 hsucc
      refine ht.2 a p hr fun es hw => ?_
      -- the walk goes on to the block, so it has come into `a` before
      have hthrough := h (es ++ [e]) (walk_snoc.2 ⟨p, hw, he, rfl⟩)
      rw [trace_snoc, List.mem_append, mem_eventsAt_enter] at hthrough
      exact hthrough.resolve_right hab
    next => exact ht.2 a b hb h
  have hend : Q _ := ValueTable.settle_invariant [] (dominatorStep f.entry f.graph) step
    (f.graph.order.length * f.graph.order.length + 1) hstart
  rw [of_eq hb.1]
  exact hend.2 a b hb h

/-- A block dominates a reached block just if every run to it comes through the dominating block. -/
theorem dominates_iff {a b : BlockId} (hb : f.Reached b) :
    f.dominators.dominates a b = true ↔ f.AlwaysThrough a b := by
  rw [Dominators.dominates, List.contains_eq_mem, decide_eq_true_eq]
  exact ⟨fun h es hw => enter_of_mem_dominators hw hb.1 h, mem_dominators_of_always hb⟩

end Function
end MovePlan
