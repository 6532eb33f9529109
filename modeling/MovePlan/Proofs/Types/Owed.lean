import MovePlan.Proofs.Types.Owed.Steps

set_option autoImplicit false

namespace MovePlan

namespace Classification
variable {t : TypeTable} {busy : List TypeId} {id y : TypeId} {facts facts' : OrderedMap TypeId TypeFacts}

theorem needsDestroy_concludeStruct (d : TypeDef) (c : Classification) (s : FieldSummary) :
    (concludeStruct d c s).2.needsDestroy = s.needsDestroy := by
  simp only [concludeStruct]
  split
  · rfl
  · split <;> rfl

theorem needsDestroy_classifyForeign (d : TypeDef) (c : Classification) :
    (classifyForeign d c).2.needsDestroy = d.ops.destructor := by
  simp only [classifyForeign]
  split
  · rfl
  · split <;> rfl

theorem Ready.done_leaf (h : Ready t busy id facts) (hway : t.FirstWay (id :: busy))
    (hnew : id ∉ facts.keys) (hleaf : t.heldFields id = []) {x : TypeFacts}
    (hx : x.needsDestroy = true ↔ t.HasDestructor id) : Done t busy id facts (facts.put id x) x := by
  have hnone : FieldsDone t (id :: busy) (t.heldFields id) facts facts
      { needsDestroy := x.needsDestroy } { needsDestroy := x.needsDestroy } := by
    rw [hleaf]
    exact ⟨fun _ _ h => h, by simp, h.explained, by simp⟩
  exact hnone.done hway hnew hx rfl

theorem Closed.cons (h : Closed t busy facts) : Closed t (id :: busy) facts :=
  fun y hy z hz => (h y hy z hz).imp_right (List.mem_cons_of_mem id)

theorem done_classify (ht : t.Built) {depth : ℕ} {c : Classification} (hb : Busy t busy id)
    (hdepth : t.size ≤ depth + busy.length) (h : Ready t busy id c.facts) :
    Done t busy id c.facts (classify t depth busy id c).1.facts (classify t depth busy id c).2 := by
  induction depth generalizing busy id c with
  | zero =>
    have hlen := hb.length_lt
    omega
  | succ depth ih =>
    obtain ⟨d, hd⟩ := Option.isSome_iff_exists.1 (hb.known id List.mem_cons_self)
    have hfit := ht.fitsKind d (TypeTable.mem_defs_of_get? hd)
    have hdestructor : t.HasDestructor id ↔ d.ops.destructor = true := by simp [TypeTable.HasDestructor, hd]
    rw [classify]
    split
    next x hx => exact h.done hx
    next hnone =>
      have hnew : id ∉ c.facts.keys := by simp [mem_keys_iff, hnone]
      have hway := h.way fun hfound => hnew (h.before id hfound)
      simp only [hd]
      split
      next hk =>
        have hheld : t.heldFields id = [] ++ d.fields := by simp [TypeTable.heldFields, hd, hk]
        have hclassify : ∀ f ∈ d.fields, f.type ∉ id :: busy → ∀ c' : Classification,
            Ready t (id :: busy) f.type c'.facts → Done t (id :: busy) f.type c'.facts
              (classify t depth (id :: busy) f.type c').1.facts
              (classify t depth (id :: busy) f.type c').2 := by
          intro f hf hoff c' hc
          have hholds : t.Holds id f.type := ⟨d, hd, hk, f, hf, rfl⟩
          have hnext := hb.next (ht.fieldsRegistered.contains_of_holds hholds) hholds hoff
          exact ih hnext (by simp only [List.length_cons]; omega) hc
        have hfields := fieldsDone_foldFields (d := d) (s := { needsDestroy := d.ops.destructor }) hheld hway
          hclassify h.explained h.closed.cons h.before (by simp)
        rw [facts_concludeStruct]
        rw [List.nil_append] at hheld
        rw [← hheld] at hfields ⊢
        exact hfields.done hway hnew hdestructor.symm (needsDestroy_concludeStruct _ _ _)
      next hk =>
        have hheld : t.heldFields id = [] := by simp [TypeTable.heldFields, hd, hk]
        rw [facts_classifyForeign]
        refine h.done_leaf hway hnew hheld ?_
        rw [needsDestroy_classifyForeign, hdestructor]
      next hstruct hforeign =>
        have hheld : t.heldFields id = [] := by simpa [TypeTable.heldFields, hd] using fun hk => (hstruct hk).elim
        refine h.done_leaf hway hnew hheld ?_
        rw [hdestructor, hfit.ops fun hauth => hauth.elim hstruct hforeign]
        simp [TypeFacts.ordinary]

theorem mem_of_ids_split {past rest : List TypeId} {q r : TypeId} (h : t.ids = past ++ r :: rest)
    (hq : t.contains q = true) (hlt : q < r) : q ∈ past := by
  have hsorted : t.ids.Pairwise (· < ·) := by
    rw [TypeTable.ids, List.pairwise_map]
    exact List.pairwise_lt_range.imp fun hab => Int.add_lt_add_right (Int.ofNat_lt.2 hab) 1
  have hmem : q ∈ past ++ r :: rest := h ▸ TypeTable.mem_ids.2 hq
  rw [h, List.pairwise_append, List.pairwise_cons] at hsorted
  rcases List.mem_append.1 hmem with hq | hq
  · exact hq
  rcases List.mem_cons.1 hq with rfl | hq
  · exact absurd hlt (Int.lt_irrefl q)
  · exact absurd (Int.lt_trans hlt (hsorted.2.1.1 q hq)) (Int.lt_irrefl q)

theorem explained_build (ht : t.Built) : Explained t (TypeModel.build t).facts := by
  have main : ∀ (rest past : List TypeId) (c : Classification), t.ids = past ++ rest →
      Explained t c.facts → Closed t [] c.facts → (∀ q ∈ past, ∀ y, t.Reaches q y → y ∈ c.facts.keys) →
      Explained t (rest.foldl (fun c id => (classify t (t.size + 1) [] id c).1) c).facts := by
    intro rest
    induction rest with
    | nil => intro past c _ h _ _; exact h
    | cons r rest ih =>
      intro past c hids hexplained hclosed hpast
      have hr : t.contains r = true := TypeTable.mem_ids.1 (by rw [hids]; simp)
      have hready : Ready t [] r c.facts := by
        refine ⟨hexplained, hclosed, fun y hy => ?_, fun hnone => ⟨hr, hnone⟩, List.not_mem_nil⟩
        obtain ⟨q, hq, hlt, hreach⟩ := hy
        exact hpast q (mem_of_ids_split hids hq hlt) y hreach
      have hdone : Done t [] r c.facts (classify t (t.size + 1) [] r c).1.facts
          (classify t (t.size + 1) [] r c).2 := done_classify ht (.start hr) (by simp) hready
      refine ih (past ++ [r]) _ (by simp [hids]) hdone.explained (hdone.closed hclosed) ?_
      rw [List.forall_mem_append, List.forall_mem_singleton]
      exact ⟨fun q hq y hy => hdone.kept.mem_keys (hpast q hq y hy),
        fun y hy => (hdone.keys y).2 (.inr (TypeTable.reachesPast_nil.2 hy))⟩
  refine main t.ids [] {} rfl (fun _ _ hx => (Option.some_ne_none _ hx.symm).elim) ?_ (by simp)
  intro y hy
  exact absurd hy (by simp [OrderedMap.keys, OrderedMap.empty])

end Classification

namespace TypeModel
variable {t : TypeTable} {s : TypeId} {d : TypeDef}

/-- The end of a scope owes something for a value of the type. -/
def Owes (m : TypeModel) (id : TypeId) : Prop := m.needsDestroy id = .ok true

/-- Fields of the struct owe destruction, and it does not: it has no destructor, and the types of all
these fields lie on the way to it. -/
structure Loses (m : TypeModel) (d : TypeDef) (above : List TypeId) : Prop where
  plain : d.ops.destructor = false
  some : ∃ f ∈ d.fields, m.Owes f.type
  onWay : ∀ f ∈ d.fields, m.Owes f.type → f.type ∈ above

theorem owes_iff {m : TypeModel} {id : TypeId} :
    m.Owes id ↔ Classification.KnownToOwe m.facts id := by
  rw [Owes, needsDestroy, bind_eq_ok, Classification.KnownToOwe]
  simp only [factsOf_eq_ok, pure_eq_ok]

/-- A struct owes destruction just if it has a destructor or a field off the first way to it holds a type
that owes it. So it owes what its own destructor and its fields owe, unless all fields that owe something
close a cycle with it. -/
theorem needsDestroy_exact (ht : t.Built) (hd : t.get? s = some d) (hk : d.kind = .struct) :
    (∃ answer, (build t).needsDestroy s = .ok answer) ∧
    ∃ above, t.FirstWay (s :: above) ∧ (∀ other, t.FirstWay (s :: other) → other = above) ∧
      ((build t).Owes s ↔ d.ops.destructor = true ∨
        ∃ f ∈ d.fields, f.type ∉ s :: above ∧ (build t).Owes f.type) ∧
      (((build t).Owes s ↔ d.ops.destructor = true ∨ ∃ f ∈ d.fields, (build t).Owes f.type) ↔
        ¬ (build t).Loses d above) := by
  refine ⟨exists_needsDestroy (TypeTable.contains_of_get? hd), ?_⟩
  obtain ⟨x, hx⟩ := exists_factsOf (TypeTable.contains_of_get? hd)
  obtain ⟨above, hway, _, hneeds⟩ := Classification.explained_build ht s x (factsOf_eq_ok.1 hx)
  have hheld : t.heldFields s = d.fields := by simp [TypeTable.heldFields, hd, hk]
  have hdestructor : t.HasDestructor s ↔ d.ops.destructor = true := by simp [TypeTable.HasDestructor, hd]
  have howes : (build t).Owes s ↔ d.ops.destructor = true ∨
      ∃ f ∈ d.fields, f.type ∉ s :: above ∧ (build t).Owes f.type := by
    rw [← hdestructor, ← hheld]
    simp only [owes_iff]
    rw [← hneeds, Classification.KnownToOwe, factsOf_eq_ok.1 hx]
    simp
  refine ⟨above, hway, fun other h => h.unique hway, howes, ?_⟩
  constructor
  · rintro hsame ⟨hplain, ⟨f, hf, hfowes⟩, honWay⟩
    rcases howes.1 (hsame.2 (.inr ⟨f, hf, hfowes⟩)) with h | ⟨g, hg, hoff, hgowes⟩
    · rw [hplain] at h
      cases h
    · exact hoff (List.mem_cons_of_mem s (honWay g hg hgowes))
  · intro hkeeps
    refine ⟨fun h => (howes.1 h).imp_right (Exists.imp fun _ => And.imp_right And.right), ?_⟩
    rintro (h | ⟨f, hf, hfowes⟩)
    · exact howes.2 (.inl h)
    by_contra hnot
    have hplain : d.ops.destructor = false := by
      by_contra hdes
      exact hnot (howes.2 (.inl (by simpa using hdes)))
    refine hkeeps ⟨hplain, ⟨f, hf, hfowes⟩, fun g hg hgowes => ?_⟩
    by_contra hoff
    by_cases hself : g.type = s
    · exact hnot (hself ▸ hgowes)
    · exact hnot (howes.2 (.inr ⟨g, hg, by simp [hself, hoff], hgowes⟩))

def linkOfRing : TypeDef := { kind := .struct, name := "Link", fields := [⟨"back", 2⟩] }

theorem needsDestroy_ring :
    (∃ answer, (build TypeTable.ring).needsDestroy 3 = .ok answer) ∧
    ∃ above, TypeTable.ring.FirstWay (3 :: above) ∧
      (∀ other, TypeTable.ring.FirstWay (3 :: other) → other = above) ∧
      ((build TypeTable.ring).Owes 3 ↔ linkOfRing.ops.destructor = true ∨
        ∃ f ∈ linkOfRing.fields, f.type ∉ 3 :: above ∧ (build TypeTable.ring).Owes f.type) ∧
      (((build TypeTable.ring).Owes 3 ↔ linkOfRing.ops.destructor = true ∨
          ∃ f ∈ linkOfRing.fields, (build TypeTable.ring).Owes f.type) ↔
        ¬ (build TypeTable.ring).Loses linkOfRing above) := by
  have hd : TypeTable.ring.get? 3 = some linkOfRing := by decide +kernel
  exact needsDestroy_exact TypeTable.ring_built hd rfl

/-- A struct holds one that owes destruction, and is found to owe nothing. -/
theorem needsDestroy_loses :
    TypeTable.ring.Built ∧ TypeTable.ring.get? 3 = some linkOfRing ∧
      (∃ f ∈ linkOfRing.fields, (build TypeTable.ring).needsDestroy f.type = .ok true) ∧
      (build TypeTable.ring).needsDestroy 3 = .ok false := by
  refine ⟨TypeTable.ring_built, by decide +kernel, ⟨⟨"back", 2⟩, by decide, ?_⟩, ?_⟩
  · decide +kernel
  · decide +kernel

end TypeModel
end MovePlan
