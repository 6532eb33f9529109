import MovePlan.Proofs.Text.Listed.Basic

set_option autoImplicit false

namespace MovePlan.Text

/-- The definition of a type, where `nominal` gives those of the names. -/
def defIn (nominal : String → TypeDef) (w : List TypeExpr) (t : TypeExpr) : TypeDef :=
  (t.derivedDef? w).getD (nominal t.base)

/-- The table with the types `u`, with the ids that they have among `w`. -/
def tableAt (nominal : String → TypeDef) (w u : List TypeExpr) : TypeTable :=
  { defs := u.map (defIn nominal w), intType := some 1, boolType := some 2 }

structure Nominal (nominal : String → TypeDef) : Prop where
  name : ∀ s, (nominal s).name = s
  kind : ∀ s, (nominal s).kind.isNominal = true

variable {nominal : String → TypeDef} {w u : List TypeExpr}

theorem name_defIn (hn : Nominal nominal) (t : TypeExpr) : (defIn nominal w t).name = t.shownName := by
  cases t with
  | named name => exact hn.name _
  | pointer inner => rfl
  | reference isMut inner => rfl

theorem idxOf_grown (hu : u <+: w) {t : TypeExpr} (ht : t ∈ u) : w.idxOf t = u.idxOf t := by
  obtain ⟨rest, rfl⟩ := hu
  exact List.idxOf_append_of_mem ht

theorem idxOf_of_next {t : TypeExpr} (hu : u ++ [t] <+: w) (ht : t ∉ u) : w.idxOf t = u.length := by
  rw [idxOf_grown hu (List.mem_append_right _ (List.mem_singleton_self t)), List.idxOf_append_of_notMem ht]
  simp

theorem get_tableAt (hu : u <+: w) {t : TypeExpr} (ht : t.plain ∈ u) :
    (tableAt nominal w u).get (idIn w t) = .ok (defIn nominal w t.plain) := by
  have hpos : (1 : ℤ) ≤ (u.idxOf t.plain : ℤ) + 1 := by omega
  have hindex : (((u.idxOf t.plain : ℕ) : ℤ) + 1 - 1).toNat = u.idxOf t.plain := by omega
  rw [TypeTable.get_eq_ok, TypeTable.get?, idIn, idxOf_grown hu ht, if_pos hpos]
  rw [hindex, tableAt, List.getElem?_map, List.getElem?_idxOf ht]
  rfl

theorem contains_tableAt (hu : u <+: w) {t : TypeExpr} (ht : t.plain ∈ u) :
    (tableAt nominal w u).contains (idIn w t) = true :=
  TypeTable.contains_of_get (get_tableAt hu ht)

theorem one_add_idxOf (hu : u <+: w) {t : TypeExpr} (hplain : t.plain = t) (ht : t ∈ u) :
    (1 : ℤ) + (u.idxOf t : ℤ) = idIn w t := by
  rw [idIn, hplain, idxOf_grown hu ht, add_comm]

theorem kind_ne (hn : Nominal nominal) (s : String) {k : TypeKind} (hk : k.isNominal = false) :
    (nominal s).kind ≠ k := by
  rintro rfl
  rw [hn.kind] at hk
  cases hk

theorem lookup_tableAt (hn : Nominal nominal) (hw : Listed w) (hu : u <+: w) (s : String) :
    (tableAt nominal w u).lookup s = if namedType s ∈ u then some (idIn w (namedType s)) else none := by
  have hp : ∀ y ∈ u, ((defIn nominal w y).kind.isNominal && (defIn nominal w y).name == s) =
      decide (y = namedType s) := by
    intro y hy
    cases y with
    | named name =>
      have hplain : (TypeExpr.named name).plain = .named name := hw.plain _ (hu.subset hy)
      change ((nominal name.text).kind.isNominal && (nominal name.text).name == s) = _
      rw [hn.kind, hn.name, Bool.true_and, ← hplain]
      by_cases hname : name.text = s <;>
        simp [hname, TypeExpr.plain, namedType, Name.plain]
    | pointer inner => exact (decide_eq_false (by simp [namedType])).symm
    | reference isMut inner => exact (decide_eq_false (by simp [namedType])).symm
  rw [TypeTable.lookup, tableAt, TypeTable.findFrom_map hp]
  refine ite_congr rfl (fun hs => ?_) fun _ => rfl
  rw [one_add_idxOf hu rfl hs]

theorem idIn_eq_iff (hw : Listed w) {t s : TypeExpr} (ht : t ∈ w) : idIn w t = idIn w s ↔ t = s.plain := by
  rw [idIn, idIn, hw.plain t ht, add_left_inj, Nat.cast_inj, List.idxOf_inj ht]

theorem append_tableAt {t : TypeExpr} {d : TypeDef} (hd : d = defIn nominal w t) (hplain : t.plain = t)
    (hu : u ++ [t] <+: w) (ht : t ∉ u) :
    (tableAt nominal w u).append d = (tableAt nominal w (u ++ [t]), idIn w t) := by
  rw [TypeTable.append, idIn, hplain, idxOf_of_next hu ht, tableAt, tableAt, TypeTable.size, List.length_map,
    List.map_append, List.map_singleton, hd]

theorem newPointer_tableAt (hn : Nominal nominal) (hw : Listed w) {t : TypeExpr} (ht : t.plain ∈ u)
    (hu : enter u (TypeExpr.pointer t).plain <+: w) : (tableAt nominal w u).newPointer (idIn w t) =
      .ok (tableAt nominal w (enter u (TypeExpr.pointer t).plain), idIn w (.pointer t)) := by
  have hgrown : u <+: w := (prefix_enter u _).trans hu
  have hp : ∀ y ∈ u, ((defIn nominal w y).kind == .pointer && (defIn nominal w y).target == some (idIn w t)) =
      decide (y = (TypeExpr.pointer t).plain) := by
    intro y hy
    cases y with
    | named name =>
      rw [show defIn nominal w (.named name) = nominal name.text from rfl,
        beq_false_of_ne (kind_ne hn name.text rfl), Bool.false_and]
      exact (decide_eq_false (by simp [TypeExpr.plain])).symm
    | pointer inner =>
      have hinner : inner ∈ w := hw.pointer (hgrown.subset hy)
      change (some (idIn w inner) == some (idIn w t)) = _
      rw [Bool.eq_iff_iff, beq_iff_eq, decide_eq_true_iff, Option.some.injEq, idIn_eq_iff hw hinner,
        TypeExpr.plain, TypeExpr.pointer.injEq]
    | reference isMut inner => exact (decide_eq_false (by simp [TypeExpr.plain])).symm
  have hdef : defIn nominal w (TypeExpr.pointer t).plain =
      { kind := .pointer, name := TypeTable.pointerName (defIn nominal w t.plain).name,
        target := some (idIn w t) } := by
    rw [name_defIn hn, ← idIn_plain w t]
    rfl
  rw [TypeTable.newPointer, show (tableAt nominal w u).defs = u.map (defIn nominal w) from rfl,
    TypeTable.findFrom_map hp, ← idIn_plain w (.pointer t), enter]
  by_cases hmem : (TypeExpr.pointer t).plain ∈ u
  · rw [if_pos hmem, if_pos hmem, one_add_idxOf hgrown (TypeExpr.plain_plain _) hmem]
  · rw [enter, if_neg hmem] at hu
    rw [if_neg hmem, if_neg hmem, get_tableAt hgrown ht]
    exact congrArg Except.ok (append_tableAt hdef.symm (TypeExpr.plain_plain _) hu hmem)

theorem newReference_tableAt (hn : Nominal nominal) (hw : Listed w) {t : TypeExpr} (isMut : Bool)
    (ht : t.plain ∈ u) (hu : enter u (TypeExpr.reference isMut t).plain <+: w) :
    (tableAt nominal w u).newReference (idIn w t) isMut =
      .ok (tableAt nominal w (enter u (TypeExpr.reference isMut t).plain), idIn w (.reference isMut t)) := by
  have hgrown : u <+: w := (prefix_enter u _).trans hu
  have hp : ∀ y ∈ u, ((defIn nominal w y).kind == .reference && (defIn nominal w y).target == some (idIn w t) &&
      (defIn nominal w y).mutable == some isMut) = decide (y = (TypeExpr.reference isMut t).plain) := by
    intro y hy
    cases y with
    | named name =>
      rw [show defIn nominal w (.named name) = nominal name.text from rfl,
        beq_false_of_ne (kind_ne hn name.text rfl), Bool.false_and, Bool.false_and]
      exact (decide_eq_false (by simp [TypeExpr.plain])).symm
    | pointer inner => exact (decide_eq_false (by simp [TypeExpr.plain])).symm
    | reference isMut' inner =>
      have hinner : inner ∈ w := hw.reference (hgrown.subset hy)
      change (some (idIn w inner) == some (idIn w t) && some isMut' == some isMut) = _
      rw [Bool.eq_iff_iff, Bool.and_eq_true, beq_iff_eq, beq_iff_eq, decide_eq_true_iff, Option.some.injEq,
        Option.some.injEq, idIn_eq_iff hw hinner, TypeExpr.plain, TypeExpr.reference.injEq, and_comm]
  have hdef : defIn nominal w (TypeExpr.reference isMut t).plain =
      { kind := .reference, name := TypeTable.referenceName isMut (defIn nominal w t.plain).name,
        target := some (idIn w t), mutable := some isMut } := by
    rw [name_defIn hn, ← idIn_plain w t]
    rfl
  rw [TypeTable.newReference, show (tableAt nominal w u).defs = u.map (defIn nominal w) from rfl,
    TypeTable.findFrom_map hp, ← idIn_plain w (.reference isMut t), enter]
  by_cases hmem : (TypeExpr.reference isMut t).plain ∈ u
  · rw [if_pos hmem, if_pos hmem, one_add_idxOf hgrown (TypeExpr.plain_plain _) hmem]
  · rw [enter, if_neg hmem] at hu
    rw [if_neg hmem, if_neg hmem, get_tableAt hgrown ht]
    exact congrArg Except.ok (append_tableAt hdef.symm (TypeExpr.plain_plain _) hu hmem)

end MovePlan.Text
