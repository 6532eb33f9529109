import Mathlib.Data.List.Induction
import MovePlan.Proofs.Types.Described

set_option autoImplicit false

/-!
# What a struct owes

A struct owes destruction if it has a destructor or holds a type that owes it. The classification finds
every type on one way: the first one in the order of registration and of fields. A field whose type lies
on the way to its struct is left out, so that what the field owes is not passed on.
-/
namespace MovePlan

namespace TypeTable
variable {t : TypeTable} {stack above : List TypeId} {a b w y z : TypeId}

/-- The fields of a struct; another type has none. -/
def heldFields (t : TypeTable) (id : TypeId) : List Field :=
  match t.get? id with
  | some d => if d.kind = .struct then d.fields else []
  | none => []

theorem holds_iff_heldFields : t.Holds a b ↔ ∃ f ∈ t.heldFields a, f.type = b := by
  rw [heldFields]
  cases hd : t.get? a with
  | none =>
    refine iff_of_false ?_ (by simp)
    rintro ⟨d, hd', _⟩
    rw [hd] at hd'
    cases hd'
  | some d =>
    rw [holds_iff hd]
    by_cases hk : d.kind = .struct <;> simp [hk]

/-- From `a` to `b` in zero or more steps, over none of the types of the stack. -/
def ReachesPast (t : TypeTable) (stack : List TypeId) (a b : TypeId) : Prop :=
  a ∉ stack ∧ Relation.ReflTransGen (fun x y => t.Holds x y ∧ y ∉ stack) a b

theorem reachesPast_refl (h : a ∉ stack) : t.ReachesPast stack a a := ⟨h, .refl⟩

theorem ReachesPast.not_mem (h : t.ReachesPast stack a b) : b ∉ stack := by
  rcases h.2.cases_tail with heq | ⟨x, _, hx⟩
  · exact heq ▸ h.1
  · exact hx.2

theorem ReachesPast.snoc (h : t.ReachesPast stack a b) (hstep : t.Holds b y) (hy : y ∉ stack) :
    t.ReachesPast stack a y :=
  ⟨h.1, h.2.tail ⟨hstep, hy⟩⟩

theorem reachesPast_nil : t.ReachesPast [] a b ↔ t.Reaches a b := by
  simp [ReachesPast, Reaches]

/-- What is reached past a stack is the type itself, or is reached from a field past that type too. -/
theorem reachesPast_iff : t.ReachesPast stack a y ↔
    a ∉ stack ∧ (y = a ∨ ∃ f ∈ t.heldFields a, t.ReachesPast (a :: stack) f.type y) := by
  constructor
  · rintro ⟨ha, hway⟩
    refine ⟨ha, ?_⟩
    induction hway with
    | refl => exact .inl rfl
    | @tail x y _ hstep ih =>
      by_cases hy : y = a
      · exact .inl hy
      have hnew : y ∉ a :: stack := by simp [hy, hstep.2]
      rcases ih with rfl | ⟨f, hf, hx⟩
      · obtain ⟨f, hf, rfl⟩ := holds_iff_heldFields.1 hstep.1
        exact .inr ⟨f, hf, reachesPast_refl hnew⟩
      · exact .inr ⟨f, hf, hx.snoc hstep.1 hnew⟩
  · rintro ⟨ha, rfl | ⟨f, hf, hway⟩⟩
    · exact reachesPast_refl ha
    · refine ⟨ha, .head ⟨holds_iff_heldFields.2 ⟨f, hf, rfl⟩, fun h => hway.1 (by simp [h])⟩ ?_⟩
      refine Relation.ReflTransGen.mono ?_ _ _ hway.2
      exact fun x y h => ⟨h.1, fun hy => h.2 (by simp [hy])⟩

/-- The type is found before the way, which is given from its end back to its root: an earlier root leads
to it, or a field of a type on the way that comes before the one that the way takes. -/
def FoundBefore (t : TypeTable) : List TypeId → TypeId → Prop
  | [], _ => False
  | [r], y => ∃ q, t.contains q = true ∧ q < r ∧ t.Reaches q y
  | w :: z :: above, y => FoundBefore t (z :: above) y ∨
      ∃ g ∈ (t.heldFields z).takeWhile (·.type ≠ w), t.ReachesPast (z :: above) g.type y

/-- A way from a registered type over fields to its end, of which no type is found before it. -/
def FirstWay (t : TypeTable) : List TypeId → Prop
  | [] => False
  | [r] => t.contains r = true ∧ ¬ t.FoundBefore [r] r
  | w :: z :: above => FirstWay t (z :: above) ∧ t.Holds z w ∧ w ∉ z :: above ∧
      ¬ t.FoundBefore (w :: z :: above) w

theorem foundBefore_append {below : List TypeId} (h : t.FoundBefore (w :: above) y) :
    t.FoundBefore (below ++ w :: above) y := by
  induction below with
  | nil => exact h
  | cons x below ih =>
    cases below with
    | nil => exact .inl ih
    | cons v below => exact .inl ih

theorem FirstWay.of_append {below : List TypeId} (h : t.FirstWay (below ++ w :: above)) :
    t.FirstWay (w :: above) := by
  induction below with
  | nil => exact h
  | cons x below ih =>
    cases below with
    | nil => exact ih h.1
    | cons v below => exact ih h.1

theorem FirstWay.not_mem (h : t.FirstWay (w :: above)) : w ∉ above := by
  cases above with
  | nil => simp
  | cons z above => exact h.2.2.1

theorem FirstWay.not_foundBefore {below : List TypeId} (h : t.FirstWay (below ++ w :: above))
    (hend : (below ++ w :: above).head? = some y) : ¬ t.FoundBefore (w :: above) y := by
  intro hfound
  have hall : t.FoundBefore (below ++ w :: above) y := foundBefore_append hfound
  cases below with
  | nil =>
    obtain rfl : w = y := Option.some.inj hend
    cases above with
    | nil => exact h.2 hall
    | cons z above => exact h.2.2.2 hall
  | cons x below =>
    obtain rfl : x = y := Option.some.inj hend
    cases below with
    | nil => exact h.2.2.2 hall
    | cons v below => exact h.2.2.2 hall

theorem FirstWay.reachesPast {below : List TypeId} (h : t.FirstWay (below ++ w :: above))
    (hend : (below ++ w :: above).head? = some y) : t.ReachesPast above w y := by
  induction below generalizing y with
  | nil =>
    obtain rfl : w = y := Option.some.inj hend
    exact reachesPast_refl h.not_mem
  | cons x below ih =>
    obtain rfl : x = y := Option.some.inj hend
    have hnew : x ∉ above := fun hx => h.not_mem (by simp [hx])
    cases below with
    | nil => exact (ih h.1 rfl).snoc h.2.1 hnew
    | cons v below => exact (ih h.1 rfl).snoc h.2.1 hnew

theorem mem_takeWhile_or {fields : List Field} {f g : Field} (hf : f ∈ fields) (hg : g ∈ fields)
    (hne : f.type ≠ g.type) :
    (∃ x ∈ fields.takeWhile (·.type ≠ g.type), x.type = f.type) ∨
      ∃ x ∈ fields.takeWhile (·.type ≠ f.type), x.type = g.type := by
  induction fields with
  | nil => cases hf
  | cons x fields ih =>
    by_cases hxf : x.type = f.type
    · left
      exact ⟨x, by simp [hxf, hne], hxf⟩
    by_cases hxg : x.type = g.type
    · right
      exact ⟨x, by simp [hxg, Ne.symm hne], hxg⟩
    have hf' : f ∈ fields := (List.mem_cons.1 hf).resolve_left fun h => hxf (by rw [h])
    have hg' : g ∈ fields := (List.mem_cons.1 hg).resolve_left fun h => hxg (by rw [h])
    rcases ih hf' hg' with ⟨y, hy, heq⟩ | ⟨y, hy, heq⟩
    · refine .inl ⟨y, ?_, heq⟩
      rw [List.takeWhile_cons_of_pos (by simpa using hxg)]
      exact List.mem_cons_of_mem x hy
    · refine .inr ⟨y, ?_, heq⟩
      rw [List.takeWhile_cons_of_pos (by simpa using hxf)]
      exact List.mem_cons_of_mem x hy

/-- Two first ways to one end do not part. -/
theorem FirstWay.step_unique {below below' : List TypeId} {w' : TypeId}
    (h : t.FirstWay (below ++ w :: above)) (h' : t.FirstWay (below' ++ w' :: above))
    (hend : (below ++ w :: above).head? = some y) (hend' : (below' ++ w' :: above).head? = some y) :
    w = w' := by
  by_contra hne
  have hway := h.reachesPast hend
  have hway' := h'.reachesPast hend'
  cases above with
  | nil =>
    have hr := (h.of_append).1
    have hr' := (h'.of_append).1
    rcases Int.lt_or_gt_of_ne hne with hlt | hlt
    · exact h'.not_foundBefore hend' ⟨w, hr, hlt, reachesPast_nil.1 hway⟩
    · exact h.not_foundBefore hend ⟨w', hr', hlt, reachesPast_nil.1 hway'⟩
  | cons z above =>
    obtain ⟨f, hf, rfl⟩ := holds_iff_heldFields.1 h.of_append.2.1
    obtain ⟨g, hg, rfl⟩ := holds_iff_heldFields.1 h'.of_append.2.1
    rcases mem_takeWhile_or hf hg hne with ⟨x, hx, heq⟩ | ⟨x, hx, heq⟩
    · exact h'.not_foundBefore hend' (.inr ⟨x, hx, heq ▸ hway⟩)
    · exact h.not_foundBefore hend (.inr ⟨x, hx, heq ▸ hway'⟩)

theorem FirstWay.head_ne {below : List TypeId} (h : t.FirstWay (below ++ w :: above))
    (hend : (below ++ w :: above).head? = some y) : above.head? ≠ some y :=
  fun hhead => (h.reachesPast hend).not_mem (List.mem_of_mem_head? hhead)

theorem FirstWay.unique_from {below below' : List TypeId} (h : t.FirstWay (below ++ above))
    (h' : t.FirstWay (below' ++ above)) (hend : (below ++ above).head? = some y)
    (hend' : (below' ++ above).head? = some y) : below = below' := by
  induction below using List.reverseRecOn generalizing above below' with
  | nil =>
    rcases List.eq_nil_or_concat below' with rfl | ⟨below', w', rfl⟩
    · rfl
    · rw [List.concat_eq_append, List.append_assoc, List.singleton_append] at h' hend'
      exact absurd hend (h'.head_ne hend')
  | append_singleton below w ih =>
    rw [List.append_assoc, List.singleton_append] at h hend
    rcases List.eq_nil_or_concat below' with rfl | ⟨below', w', rfl⟩
    · exact absurd hend' (h.head_ne hend)
    · rw [List.concat_eq_append, List.append_assoc, List.singleton_append] at h' hend'
      obtain rfl := h.step_unique h' hend hend'
      rw [List.concat_eq_append, ih h h' hend hend']

theorem FirstWay.unique {other : List TypeId} (h : t.FirstWay (y :: above))
    (h' : t.FirstWay (y :: other)) : above = other := by
  rw [← List.append_nil (y :: above)] at h
  rw [← List.append_nil (y :: other)] at h'
  exact (List.cons.inj (h.unique_from h' rfl rfl)).2

def HasDestructor (t : TypeTable) (id : TypeId) : Prop :=
  ∃ d, t.get? id = some d ∧ d.ops.destructor = true

end TypeTable

end MovePlan
