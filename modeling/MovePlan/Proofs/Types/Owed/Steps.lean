import MovePlan.Proofs.Types.Owed.Ways

set_option autoImplicit false

namespace MovePlan

namespace Classification
variable {t : TypeTable} {busy : List TypeId} {id y : TypeId} {facts facts' : OrderedMap TypeId TypeFacts}

/-- The type is known to owe destruction. -/
def KnownToOwe (facts : OrderedMap TypeId TypeFacts) (id : TypeId) : Prop :=
  ∃ x, facts.get? id = some x ∧ x.needsDestroy = true

/-- The answer for a type follows from its destructor and from the fields whose types are off the first
way to it, all of which are known. -/
def OwedAlong (t : TypeTable) (facts : OrderedMap TypeId TypeFacts) (id : TypeId) (needs : Bool) : Prop :=
  ∃ above, t.FirstWay (id :: above) ∧
    (∀ f ∈ t.heldFields id, f.type ∉ id :: above → f.type ∈ facts.keys) ∧
    (needs = true ↔ t.HasDestructor id ∨
      ∃ f ∈ t.heldFields id, f.type ∉ id :: above ∧ KnownToOwe facts f.type)

def Explained (t : TypeTable) (facts : OrderedMap TypeId TypeFacts) : Prop :=
  ∀ id x, facts.get? id = some x → OwedAlong t facts id x.needsDestroy

/-- What a known type holds is known, or it is being classified. -/
def Closed (t : TypeTable) (busy : List TypeId) (facts : OrderedMap TypeId TypeFacts) : Prop :=
  ∀ y ∈ facts.keys, ∀ z, t.Holds y z → z ∈ facts.keys ∨ z ∈ busy

def Kept (facts facts' : OrderedMap TypeId TypeFacts) : Prop :=
  ∀ id x, facts.get? id = some x → facts'.get? id = some x

theorem mem_keys_iff : id ∈ facts.keys ↔ ∃ x, facts.get? id = some x := by
  rw [← OrderedMap.contains_iff, OrderedMap.contains, Option.isSome_iff_exists]

theorem Kept.trans {facts'' : OrderedMap TypeId TypeFacts} (h : Kept facts facts')
    (h' : Kept facts' facts'') : Kept facts facts'' :=
  fun id x hx => h' id x (h id x hx)

theorem kept_put (h : id ∉ facts.keys) (x : TypeFacts) : Kept facts (facts.put id x) := by
  intro y z hz
  rw [OrderedMap.get?_put, if_neg, hz]
  rintro rfl
  exact h (mem_keys_iff.2 ⟨z, hz⟩)

theorem Kept.mem_keys (h : Kept facts facts') (hy : y ∈ facts.keys) : y ∈ facts'.keys := by
  obtain ⟨x, hx⟩ := mem_keys_iff.1 hy
  exact mem_keys_iff.2 ⟨x, h y x hx⟩

theorem Kept.knownToOwe (h : Kept facts facts') (hy : y ∈ facts.keys) :
    KnownToOwe facts' y ↔ KnownToOwe facts y := by
  obtain ⟨x, hx⟩ := mem_keys_iff.1 hy
  rw [KnownToOwe, KnownToOwe, hx, h y x hx]

theorem OwedAlong.of_kept {needs : Bool} (h : OwedAlong t facts id needs) (hkept : Kept facts facts') :
    OwedAlong t facts' id needs := by
  obtain ⟨above, hway, hknown, hneeds⟩ := h
  refine ⟨above, hway, fun f hf hnew => hkept.mem_keys (hknown f hf hnew), ?_⟩
  rw [hneeds]
  refine or_congr_right (exists_congr fun f => and_congr_right fun hf => and_congr_right fun hnew => ?_)
  exact (hkept.knownToOwe (hknown f hf hnew)).symm

theorem Explained.put (h : Explained t facts) (hnew : id ∉ facts.keys) {x : TypeFacts}
    (hx : OwedAlong t facts id x.needsDestroy) : Explained t (facts.put id x) := by
  have hkept := kept_put hnew x
  intro y z hz
  rw [OrderedMap.get?_put] at hz
  split at hz
  next heq =>
    subst heq
    rw [← Option.some.inj hz]
    exact hx.of_kept hkept
  next => exact (h y z hz).of_kept hkept

theorem Closed.mem_keys (h : Closed t busy facts) (hid : id ∈ facts.keys)
    (hy : t.ReachesPast busy id y) : y ∈ facts.keys := by
  obtain ⟨_, hway⟩ := hy
  induction hway with
  | refl => exact hid
  | tail _ hstep ih => exact (h _ ih _ hstep.1).resolve_right hstep.2

/-- What is known when a type is about to be classified. -/
structure Ready (t : TypeTable) (busy : List TypeId) (id : TypeId)
    (facts : OrderedMap TypeId TypeFacts) : Prop where
  explained : Explained t facts
  closed : Closed t busy facts
  before : ∀ y, t.FoundBefore (id :: busy) y → y ∈ facts.keys
  way : ¬ t.FoundBefore (id :: busy) id → t.FirstWay (id :: busy)
  new : id ∉ busy

/-- What is known when the type has been classified: what it reaches past the busy types, and no more
than that is new. -/
structure Done (t : TypeTable) (busy : List TypeId) (id : TypeId)
    (facts facts' : OrderedMap TypeId TypeFacts) (x : TypeFacts) : Prop where
  kept : Kept facts facts'
  keys : ∀ y, y ∈ facts'.keys ↔ y ∈ facts.keys ∨ t.ReachesPast busy id y
  found : facts'.get? id = some x
  explained : Explained t facts'

/-- What is known when some fields of a struct have been gone through. -/
structure FieldsDone (t : TypeTable) (busy : List TypeId) (fields : List Field)
    (facts facts' : OrderedMap TypeId TypeFacts) (s s' : FieldSummary) : Prop where
  kept : Kept facts facts'
  keys : ∀ y, y ∈ facts'.keys ↔ y ∈ facts.keys ∨ ∃ f ∈ fields, t.ReachesPast busy f.type y
  explained : Explained t facts'
  destroy : s'.needsDestroy = true ↔ s.needsDestroy = true ∨
    ∃ f ∈ fields, f.type ∉ busy ∧ KnownToOwe facts' f.type

theorem Ready.done (h : Ready t busy id facts) {x : TypeFacts} (hx : facts.get? id = some x) :
    Done t busy id facts facts x where
  kept _ _ h := h
  keys y := by
    refine ⟨.inl, fun hy => hy.elim (fun hold => hold) fun hreach => ?_⟩
    exact h.closed.mem_keys (mem_keys_iff.2 ⟨x, hx⟩) hreach
  found := hx
  explained := h.explained

theorem Done.closed {x : TypeFacts} (h : Done t busy id facts facts' x) (hc : Closed t busy facts) :
    Closed t busy facts' := by
  intro y hy z hstep
  by_cases hz : z ∈ busy
  · exact .inr hz
  left
  rcases (h.keys y).1 hy with hy | hreach
  · exact h.kept.mem_keys ((hc y hy z hstep).resolve_right hz)
  · exact (h.keys z).2 (.inr (hreach.snoc hstep hz))

/-- The fields settle what the struct owes, and it becomes known. -/
theorem FieldsDone.done {s s' : FieldSummary} {x : TypeFacts}
    (h : FieldsDone t (id :: busy) (t.heldFields id) facts facts' s s')
    (hway : t.FirstWay (id :: busy)) (hnew : id ∉ facts.keys)
    (hstart : s.needsDestroy = true ↔ t.HasDestructor id) (hx : x.needsDestroy = s'.needsDestroy) :
    Done t busy id facts (facts'.put id x) x := by
  have hnew' : id ∉ facts'.keys := by
    rw [h.keys]
    rintro (hid | ⟨f, _, hreach⟩)
    · exact hnew hid
    · exact hreach.not_mem List.mem_cons_self
  refine ⟨h.kept.trans (kept_put hnew' x), fun y => ?_, ?_, h.explained.put hnew' ?_⟩
  · rw [OrderedMap.mem_keys_put, h.keys, TypeTable.reachesPast_iff, and_iff_right hway.not_mem]
    tauto
  · rw [OrderedMap.get?_put, if_pos rfl]
  · refine ⟨busy, hway, fun f hf hoff => ?_, ?_⟩
    · exact (h.keys f.type).2 (.inr ⟨f, hf, TypeTable.reachesPast_refl hoff⟩)
    · rw [hx, h.destroy, hstart]

section Fields
variable {d : TypeDef} {fields : List Field} {f : Field} {c : Classification} {s : FieldSummary}
  {classify : TypeId → Classification → Classification × TypeFacts}

theorem exists_foldFields_next (t : TypeTable) (d : TypeDef) (fields : List Field) (c : Classification)
    (s : FieldSummary) (classify : TypeId → Classification → Classification × TypeFacts)
    (h : f.type ∉ busy) :
    ∃ c₁, c₁.facts = (classify f.type c).1.facts ∧ foldFields t d busy classify (f :: fields) c s =
      foldFields t d busy classify fields c₁ (s.add (classify f.type c).2) := by
  cases hv : (classify f.type c).2.violating with
  | true => exact ⟨refuseField t d f (classify f.type c).1, rfl, foldFields_refuse h hv⟩
  | false => exact ⟨(classify f.type c).1, rfl, foldFields_accept h hv⟩

theorem FieldsDone.cons_busy {s' : FieldSummary}
    (h : FieldsDone t busy fields facts facts' { s with violating := true } s') (hf : f.type ∈ busy) :
    FieldsDone t busy (f :: fields) facts facts' s s' := by
  have hout : ∀ y, ¬ t.ReachesPast busy f.type y := fun y hy => hy.1 hf
  refine ⟨h.kept, fun y => ?_, h.explained, ?_⟩
  · rw [h.keys]
    simp [hout]
  · rw [h.destroy]
    simp [hf]

theorem FieldsDone.cons_done {facts₁ : OrderedMap TypeId TypeFacts} {s' : FieldSummary} {x : TypeFacts}
    (h : FieldsDone t busy fields facts₁ facts' (s.add x) s') (hf : f.type ∉ busy)
    (hdone : Done t busy f.type facts facts₁ x) : FieldsDone t busy (f :: fields) facts facts' s s' := by
  have howes : KnownToOwe facts' f.type ↔ x.needsDestroy = true := by
    rw [KnownToOwe, h.kept _ _ hdone.found]
    simp
  refine ⟨hdone.kept.trans h.kept, fun y => ?_, h.explained, ?_⟩
  · rw [h.keys, hdone.keys]
    simp [or_assoc]
  · rw [h.destroy]
    simp [FieldSummary.add, hf, howes, or_assoc]

theorem mem_of_mem_takeWhile {past : List Field} {g : Field}
    (h : g ∈ (past ++ f :: fields).takeWhile (·.type ≠ f.type)) : g ∈ past := by
  induction past with
  | nil => simp at h
  | cons x past ih =>
    by_cases hx : x.type = f.type
    · rw [List.cons_append, List.takeWhile_cons_of_neg (by simpa using hx)] at h
      cases h
    · rw [List.cons_append, List.takeWhile_cons_of_pos (by simpa using hx)] at h
      rcases List.mem_cons.1 h with rfl | h
      · exact List.mem_cons_self
      · exact List.mem_cons_of_mem x (ih h)

theorem ready_field {past : List Field} (hfields : t.heldFields id = past ++ f :: fields)
    (hway : t.FirstWay (id :: busy)) (hexplained : Explained t facts)
    (hclosed : Closed t (id :: busy) facts) (hbefore : ∀ y, t.FoundBefore (id :: busy) y → y ∈ facts.keys)
    (hpast : ∀ g ∈ past, ∀ y, t.ReachesPast (id :: busy) g.type y → y ∈ facts.keys)
    (hf : f.type ∉ id :: busy) : Ready t (id :: busy) f.type facts where
  explained := hexplained
  closed := hclosed
  before y hy := by
    rcases hy with hy | ⟨g, hg, hreach⟩
    · exact hbefore y hy
    · rw [hfields] at hg
      exact hpast g (mem_of_mem_takeWhile hg) y hreach
  way hnone := by
    have hheld : f ∈ t.heldFields id := by simp [hfields]
    exact ⟨hway, TypeTable.holds_iff_heldFields.2 ⟨f, hheld, rfl⟩, hf, hnone⟩
  new := hf

theorem fieldsDone_foldFields {past : List Field} (hfields : t.heldFields id = past ++ fields)
    (hway : t.FirstWay (id :: busy))
    (hclassify : ∀ f ∈ fields, f.type ∉ id :: busy → ∀ c, Ready t (id :: busy) f.type c.facts →
      Done t (id :: busy) f.type c.facts (classify f.type c).1.facts (classify f.type c).2)
    (hexplained : Explained t c.facts) (hclosed : Closed t (id :: busy) c.facts)
    (hbefore : ∀ y, t.FoundBefore (id :: busy) y → y ∈ c.facts.keys)
    (hpast : ∀ g ∈ past, ∀ y, t.ReachesPast (id :: busy) g.type y → y ∈ c.facts.keys) :
    FieldsDone t (id :: busy) fields c.facts
      (foldFields t d (id :: busy) classify fields c s).1.facts s
      (foldFields t d (id :: busy) classify fields c s).2 := by
  induction fields generalizing past c s with
  | nil => exact ⟨fun _ _ h => h, by simp [foldFields], hexplained, by simp [foldFields]⟩
  | cons f fields ih =>
    have hnext : t.heldFields id = (past ++ [f]) ++ fields := by simp [hfields]
    have hrest := fun g hg => hclassify g (List.mem_cons_of_mem f hg)
    by_cases hf : f.type ∈ id :: busy
    · rw [foldFields_busy hf]
      have hpast' : ∀ g ∈ past ++ [f], ∀ y, t.ReachesPast (id :: busy) g.type y → y ∈ c.facts.keys := by
        rw [List.forall_mem_append, List.forall_mem_singleton]
        exact ⟨hpast, fun y hy => absurd hf hy.1⟩
      have hskip := @ih (closeCycle t d f c) { s with violating := true } _ hnext hrest hexplained hclosed
        hbefore hpast'
      exact hskip.cons_busy hf
    · obtain ⟨c₁, hfacts, heq⟩ := exists_foldFields_next t d fields c s classify hf
      have hdone := hclassify f List.mem_cons_self hf c
        (ready_field hfields hway hexplained hclosed hbefore hpast hf)
      rw [← hfacts] at hdone
      rw [heq]
      refine FieldsDone.cons_done (ih hnext hrest hdone.explained (hdone.closed hclosed) ?_ ?_) hf hdone
      · exact fun y hy => hdone.kept.mem_keys (hbefore y hy)
      · rw [List.forall_mem_append, List.forall_mem_singleton]
        exact ⟨fun g hg y hy => hdone.kept.mem_keys (hpast g hg y hy),
          fun y hy => (hdone.keys y).2 (.inr hy)⟩

end Fields

end Classification
end MovePlan
