import MovePlan.Proofs.Types.Classified

set_option autoImplicit false

namespace MovePlan
namespace TypeTable
variable {t t' : TypeTable}

/-- The later table begins with the definitions of the earlier one. -/
def Begins (t t' : TypeTable) : Prop := t.defs <+: t'.defs

namespace Begins

theorem refl (t : TypeTable) : t.Begins t := ⟨[], List.append_nil _⟩

theorem trans {t'' : TypeTable} (h : t.Begins t') (h' : t'.Begins t'') : t.Begins t'' :=
  List.IsPrefix.trans h h'

theorem of_adds {d : TypeDef} (h : t.Adds t' d) : t.Begins t' := by
  rcases h with h | h
  · exact ⟨[], by rw [List.append_nil, h]⟩
  · exact ⟨[d], h.symm⟩

theorem size_le (h : t.Begins t') : t.size ≤ t'.size := List.IsPrefix.length_le h

theorem get? (h : t.Begins t') {id : TypeId} (hid : t.contains id = true) : t'.get? id = t.get? id := by
  obtain ⟨hpos, hle⟩ := contains_iff.1 hid
  have hlt : (id - 1).toNat < t.defs.length := by
    rw [size] at hle
    omega
  rw [TypeTable.get?, TypeTable.get?, if_pos hpos, if_pos hpos, List.prefix_iff_getElem?.1 h _ hlt,
    List.getElem?_eq_getElem hlt]

theorem get (h : t.Begins t') {id : TypeId} (hid : t.contains id = true) : t'.get id = t.get id := by
  rw [TypeTable.get, TypeTable.get, h.get? hid]

theorem contains (h : t.Begins t') {id : TypeId} (hid : t.contains id = true) : t'.contains id = true := by
  rw [TypeTable.contains, h.get? hid]
  exact hid

theorem defineStruct {t'' : TypeTable} (h : t.Begins t') {id : Int} {fields : List Field}
    (hid : (t.size : Int) < id) (ht : t'.defineStruct id fields = .ok t'') : t.Begins t'' := by
  obtain ⟨d, -, -, -, rfl⟩ := of_defineStruct ht
  obtain ⟨rest, hrest⟩ := h
  refine ⟨rest.set ((id - 1).toNat - t.defs.length) { d with fields := fields }, ?_⟩
  change _ = t'.defs.set _ _
  rw [size] at hid
  rw [← hrest, List.set_append_right _ _ (by omega)]

end Begins

def TargetsEarlier (t : TypeTable) : Prop :=
  ∀ {i : ℕ} {d : TypeDef} {inner : Int}, t.defs[i]? = some d → d.target = some inner →
    1 ≤ inner ∧ inner ≤ (i : Int)

namespace TargetsEarlier

theorem append (h : t.TargetsEarlier) {d : TypeDef}
    (hd : ∀ {inner : TypeId}, d.target = some inner → t.contains inner = true) :
    TargetsEarlier (t.append d).1 := by
  intro i x inner hx hinner
  rw [TypeTable.append, List.getElem?_append] at hx
  split at hx
  · exact h hx hinner
  next hi =>
    rw [List.getElem?_singleton] at hx
    split at hx
    · rw [Option.some.injEq] at hx
      obtain ⟨hpos, hle⟩ : 1 ≤ inner ∧ inner ≤ (t.size : Int) := contains_iff.1 (hd (hx ▸ hinner))
      rw [size] at hle
      exact ⟨hpos, by omega⟩
    · cases hx

theorem adds (h : t.TargetsEarlier) {d : TypeDef} (ht : t.Adds t' d) (hd : d.target = none) :
    t'.TargetsEarlier := by
  rcases ht with ht | ht
  · intro i x inner hx
    rw [ht] at hx
    exact h hx
  · have happend : t'.defs = (t.append d).1.defs := ht
    intro i x inner hx
    rw [happend] at hx
    exact h.append (fun hinner => by rw [hd] at hinner; cases hinner) hx

theorem shared (h : t.TargetsEarlier) {known : Option TypeId} {inner : TypeId} {d : TypeDef → TypeDef}
    {id : TypeId} (hd : ∀ x, (d x).target = some inner)
    (ht : (match known with
      | some id => .ok (t, id)
      | none => do
        let x ← t.get inner
        return t.append (d x)) = (.ok (t', id) : Except TypeError (TypeTable × TypeId))) :
    t'.TargetsEarlier := by
  rcases of_shared ht with ⟨-, rfl⟩ | ⟨-, x, hx, rfl, -⟩
  · exact h
  · refine h.append fun {y} hy => ?_
    rw [hd, Option.some.injEq] at hy
    exact hy ▸ contains_of_get hx

theorem defineStruct (h : t.TargetsEarlier) {id : TypeId} {fields : List Field}
    (ht : t.defineStruct id fields = .ok t') : t'.TargetsEarlier := by
  obtain ⟨d, hd, -, -, rfl⟩ := of_defineStruct ht
  intro i x inner hx hinner
  have hold : t.defs[(id - 1).toNat]? = some d := by
    have hpos := (contains_iff.1 (contains_of_get hd)).1
    rw [get_eq_ok, get?, if_pos hpos] at hd
    exact hd
  rw [List.getElem?_set] at hx
  split at hx
  next heq =>
    split at hx
    · rw [Option.some.injEq] at hx
      subst hx
      rw [heq] at hold
      exact h hold hinner
    · cases hx
  next => exact h hx hinner

end TargetsEarlier

theorem Built.targetsEarlier (h : t.Built) : t.TargetsEarlier := by
  induction h with
  | empty => intro i d inner hd; simp at hd
  | newScalar _ ht ih => exact ih.adds (adds_of_register ht) rfl
  | newForeign _ ht ih => exact ih.adds (adds_of_register ht) rfl
  | declareStruct _ ht ih => exact ih.adds (adds_of_register ht) rfl
  | defineStruct _ ht ih => exact ih.defineStruct ht
  | newPointer _ ht ih => exact ih.shared (fun _ => rfl) ht
  | newReference _ ht ih => exact ih.shared (fun _ => rfl) ht
  | ensureInt _ ht ih => exact ih.adds (adds_of_ensureInt ht) rfl
  | ensureBool _ ht ih => exact ih.adds (adds_of_ensureBool ht) rfl
  | ensureUnknown _ ht ih => exact ih.adds (adds_of_ensureUnknown ht) rfl

theorem Begins.pointee (h : t.Begins t') (ht : t.TargetsEarlier) {depth depth' : ℕ} {id : Int}
    (hid : t.contains id = true) (hdepth : id ≤ (depth : Int)) (hdepth' : id ≤ (depth' : Int)) :
    t'.pointee depth' id = t.pointee depth id := by
  induction depth generalizing depth' id with
  | zero =>
    have := (contains_iff.1 hid).1
    omega
  | succ depth ih =>
    obtain ⟨hpos, hle⟩ := contains_iff.1 hid
    obtain ⟨depth', rfl⟩ : ∃ n, depth' = n + 1 := ⟨depth' - 1, by omega⟩
    obtain ⟨d, hd⟩ := Option.isSome_iff_exists.1 hid
    have hinner : ∀ {inner : Int}, d.target = some inner →
        t'.pointee depth' inner = t.pointee depth inner := by
      intro inner hinner
      rw [TypeTable.get?, if_pos hpos] at hd
      obtain ⟨hfirst, hearlier⟩ := ht hd hinner
      exact ih (contains_iff.2 ⟨hfirst, by omega⟩) (by omega) (by omega)
    rw [TypeTable.pointee, TypeTable.pointee, h.get hid, get_eq_ok.2 hd]
    simp only [bind, Except.bind]
    cases htarget : d.target with
    | none => cases d.kind <;> rfl
    | some inner => cases d.kind <;> simp only [hinner htarget]

theorem Begins.walk (h : t.Begins t') (ht : t.Built) {id : Int} (hid : t.contains id = true)
    (path : List String) : t'.walk id path = t.walk id path := by
  induction path generalizing id with
  | nil => rfl
  | cons field path ih =>
    have hle : id ≤ (t.size : Int) := (contains_iff.1 hid).2
    have hsize := h.size_le
    have hpointee : t'.pointee (t'.size + 1) id = t.pointee (t.size + 1) id :=
      h.pointee ht.targetsEarlier hid (by omega) (by omega)
    have hstep : t'.step id field = t.step id field := by rw [step, step, hpointee]
    rw [TypeTable.walk, TypeTable.walk, hstep]
    cases hnext : t.step id field with
    | error e => rfl
    | ok next =>
      obtain ⟨-, d, hd, x, hx, hx'⟩ := step_eq_ok hnext
      simp only [bind, Except.bind, ih (hx' ▸ ht.fieldsRegistered d hd x hx)]

end TypeTable

namespace Classification
variable {t t' : TypeTable}

theorem foldFields_congr {d : TypeDef} {busy : List TypeId}
    {classify classify' : TypeId → Classification → Classification × TypeFacts} {fields : List Field}
    (hget : ∀ f ∈ fields, t'.get? f.type = t.get? f.type)
    (hsame : ∀ f ∈ fields, f.type ∉ busy → ∀ c, classify' f.type c = classify f.type c)
    (c : Classification) (s : FieldSummary) :
    foldFields t' d busy classify' fields c s = foldFields t d busy classify fields c s := by
  induction fields generalizing c s with
  | nil => rfl
  | cons f fields ih =>
    rw [List.forall_mem_cons] at hget hsame
    rw [foldFields, foldFields, hget.1]
    split
    · exact ih hget.2 hsame.2 _ _
    next hnew =>
      simp only [hsame.1 hnew]
      exact ih hget.2 hsame.2 _ _

/-- The classification of a type sees the types that it holds only, and no limit on the depth. -/
theorem classify_of_begins (h : t.Begins t') (ht : t.FieldsRegistered) {depth depth' : ℕ}
    {busy : List TypeId} {id : TypeId} (hb : Busy t busy id) (hdepth : t.size ≤ depth + busy.length)
    (hdepth' : t.size ≤ depth' + busy.length) (c : Classification) :
    classify t' depth' busy id c = classify t depth busy id c := by
  induction depth generalizing depth' busy id c with
  | zero =>
    have := hb.length_lt
    omega
  | succ depth ih =>
    have hlt := hb.length_lt
    obtain ⟨depth', rfl⟩ : ∃ n, depth' = n + 1 := ⟨depth' - 1, by omega⟩
    have hid := hb.known id List.mem_cons_self
    obtain ⟨d, hd⟩ := Option.isSome_iff_exists.1 hid
    have hfold : d.kind = .struct →
        foldFields t' d (id :: busy) (classify t' depth' (id :: busy)) d.fields c
            { needsDestroy := d.ops.destructor } =
          foldFields t d (id :: busy) (classify t depth (id :: busy)) d.fields c
            { needsDestroy := d.ops.destructor } := by
      intro hk
      have hholds : ∀ f ∈ d.fields, t.Holds id f.type := fun f hf => ⟨d, hd, hk, f, hf, rfl⟩
      refine foldFields_congr (fun f hf => h.get? (ht.contains_of_holds (hholds f hf))) ?_ _ _
      intro f hf hnew c
      refine ih (hb.next (ht.contains_of_holds (hholds f hf)) (hholds f hf) hnew) ?_ ?_ c
      · simp only [List.length_cons]
        omega
      · simp only [List.length_cons]
        omega
    rw [classify, classify, h.get? hid, hd]
    cases hk : d.kind with
    | struct => simp only [hk, hfold hk]
    | _ => simp only [hk]

theorem get?_foldFields {d : TypeDef} {busy : List TypeId}
    {classify : TypeId → Classification → Classification × TypeFacts} {x : TypeId} {facts : TypeFacts}
    (hkeep : ∀ id c, c.facts.get? x = some facts → (classify id c).1.facts.get? x = some facts)
    {fields : List Field} {c : Classification} {s : FieldSummary} (h : c.facts.get? x = some facts) :
    (foldFields t d busy classify fields c s).1.facts.get? x = some facts := by
  induction fields generalizing c s with
  | nil => exact h
  | cons f fields ih =>
    rw [foldFields]
    split
    · exact ih h
    · refine ih ?_
      have hnext := hkeep f.type c h
      split <;> exact hnext

theorem get?_classify {depth : ℕ} {busy : List TypeId} {id x : TypeId} {c : Classification}
    {facts : TypeFacts} (h : c.facts.get? x = some facts) :
    (classify t depth busy id c).1.facts.get? x = some facts := by
  induction depth generalizing busy id c with
  | zero => exact h
  | succ depth ih =>
    rw [classify]
    split
    · exact h
    next hnone =>
      have hne : x ≠ id := by
        rintro rfl
        rw [h] at hnone
        cases hnone
      rw [OrderedMap.get?_put, if_neg hne]
      split
      · exact h
      · split
        · rw [facts_concludeStruct]
          exact get?_foldFields (fun _ _ hc => ih hc) h
        · rw [facts_classifyForeign]
          exact h
        · exact h

def classifyAll (t : TypeTable) (ids : List TypeId) (c : Classification) : Classification :=
  ids.foldl (fun c id => (classify t (t.size + 1) [] id c).1) c

theorem classifyAll_cons (t : TypeTable) (id : TypeId) (ids : List TypeId) (c : Classification) :
    classifyAll t (id :: ids) c = classifyAll t ids (classify t (t.size + 1) [] id c).1 :=
  List.foldl_cons ..

theorem classifyAll_of_begins (h : t.Begins t') (ht : t.FieldsRegistered) {ids : List TypeId}
    (hids : ∀ id ∈ ids, t.contains id = true) {c : Classification} :
    classifyAll t' ids c = classifyAll t ids c := by
  induction ids generalizing c with
  | nil => rw [classifyAll, classifyAll, List.foldl_nil, List.foldl_nil]
  | cons id ids ih =>
    rw [List.forall_mem_cons] at hids
    have hsize := h.size_le
    have hfirst : classify t' (t'.size + 1) [] id c = classify t (t.size + 1) [] id c :=
      classify_of_begins h ht (.start hids.1) (by simp) (by simp; omega) c
    rw [classifyAll_cons, classifyAll_cons, hfirst, ih hids.2]

theorem get?_classifyAll {x : TypeId} {facts : TypeFacts} (ids : List TypeId) {c : Classification}
    (h : c.facts.get? x = some facts) : (classifyAll t ids c).facts.get? x = some facts := by
  induction ids generalizing c with
  | nil => exact h
  | cons id ids ih =>
    rw [classifyAll_cons]
    exact ih (get?_classify h)

end Classification

namespace TypeModel
open Classification
variable {t t' : TypeTable}

/-- A type has the same facts when types are added after it. -/
theorem factsOf_of_begins (h : t.Begins t') (ht : t.Built) {id : TypeId} (hid : t.contains id = true) :
    (build t').factsOf id = (build t).factsOf id := by
  obtain ⟨x, hx⟩ := exists_factsOf hid
  obtain ⟨n, hn⟩ := Nat.exists_eq_add_of_le h.size_le
  have hids : t'.ids = t.ids ++ ((List.range n).map (t.size + ·)).map fun (i : Nat) => (i : Int) + 1 := by
    rw [TypeTable.ids, TypeTable.ids, hn, List.range_add, List.map_append]
  have hold : (classifyAll t t.ids {}).facts.get? id = some x := factsOf_eq_ok.1 hx
  have hnew : (classifyAll t' t'.ids {}).facts.get? id = some x := by
    rw [hids, classifyAll, List.foldl_append]
    refine get?_classifyAll _ ?_
    rw [← classifyAll, classifyAll_of_begins h ht.fieldsRegistered fun y hy => TypeTable.mem_ids.1 hy]
    exact hold
  rw [hx, factsOf_eq_ok]
  exact hnew

end TypeModel
end MovePlan
