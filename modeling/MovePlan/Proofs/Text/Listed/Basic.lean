import MovePlan.Proofs.Text.Denotation

set_option autoImplicit false

namespace MovePlan

namespace TypeTable

theorem findFrom_map {α : Type} [DecidableEq α] {g : α → TypeDef} {p : TypeDef → Bool} {x : α} {u : List α}
    (hp : ∀ y ∈ u, p (g y) = decide (y = x)) (first : ℤ) :
    findFrom p first (u.map g) = if x ∈ u then some (first + (u.idxOf x : ℤ)) else none := by
  induction u generalizing first with
  | nil => rfl
  | cons y u ih =>
    rw [List.forall_mem_cons] at hp
    rw [List.map_cons, findFrom, hp.1]
    by_cases hy : y = x
    · subst hy
      simp
    · rw [if_neg (by simpa using hy), ih hp.2, List.idxOf_cons_ne u hy]
      by_cases hx : x ∈ u
      · rw [if_pos hx, if_pos (List.mem_cons_of_mem _ hx), Nat.cast_succ]
        exact congrArg some (by omega)
      · rw [if_neg hx, if_neg (by simpa [hx] using Ne.symm hy)]

end TypeTable

namespace Text

theorem TypeExpr.plain_plain (t : TypeExpr) : t.plain.plain = t.plain := by
  induction t with
  | named name => rfl
  | pointer inner ih => rw [plain, plain, ih]
  | reference isMut inner ih => rw [plain, plain, ih]

theorem TypeExpr.base_plain (t : TypeExpr) : t.plain.base = t.base := by
  induction t with
  | named name => rfl
  | pointer inner ih => exact ih
  | reference isMut inner ih => exact ih

theorem idIn_plain (u : List TypeExpr) (t : TypeExpr) : idIn u t.plain = idIn u t := by
  rw [idIn, t.plain_plain, idIn]

theorem prefix_enter (u : List TypeExpr) (t : TypeExpr) : u <+: enter u t := by
  rw [enter]
  split
  · exact List.prefix_refl u
  · exact List.prefix_append u [t]

theorem mem_enter (u : List TypeExpr) (t : TypeExpr) : t ∈ enter u t := by
  rw [enter]
  split
  · assumption
  · exact List.mem_append_right _ (List.mem_singleton_self t)

theorem prefix_foldl_enter (u ts : List TypeExpr) : u <+: ts.foldl enter u := by
  induction ts generalizing u with
  | nil => exact List.prefix_refl u
  | cons t ts ih => exact (prefix_enter u t).trans (ih _)

theorem grow_append (u ts ts' : List TypeExpr) : grow u (ts ++ ts') = grow (grow u ts) ts' := by
  rw [grow, List.flatMap_append, List.foldl_append, grow, grow]

theorem grow_cons (u : List TypeExpr) (t : TypeExpr) (ts : List TypeExpr) :
    grow u (t :: ts) = grow (grow u [t]) ts :=
  grow_append u [t] ts

theorem grow_singleton (u : List TypeExpr) (t : TypeExpr) : grow u [t] = t.derived.foldl enter u := by
  rw [grow, List.flatMap_singleton]

theorem grow_pointer (u : List TypeExpr) (t : TypeExpr) :
    grow u [.pointer t] = enter (grow u [t]) (TypeExpr.pointer t).plain := by
  rw [grow_singleton, grow_singleton, TypeExpr.derived, List.foldl_append, List.foldl_cons, List.foldl_nil]

theorem grow_reference (u : List TypeExpr) (isMut : Bool) (t : TypeExpr) :
    grow u [.reference isMut t] = enter (grow u [t]) (TypeExpr.reference isMut t).plain := by
  rw [grow_singleton, grow_singleton, TypeExpr.derived, List.foldl_append, List.foldl_cons, List.foldl_nil]

theorem prefix_grow (u ts : List TypeExpr) : u <+: grow u ts := prefix_foldl_enter u _

theorem mem_grow_type {u : List TypeExpr} {t : TypeExpr} (hbase : namedType t.base ∈ u) :
    t.plain ∈ grow u [t] := by
  cases t with
  | named name => exact hbase
  | pointer inner => exact grow_pointer u inner ▸ mem_enter _ _
  | reference isMut inner => exact grow_reference u isMut inner ▸ mem_enter _ _

theorem mem_grow {u ts : List TypeExpr} (hbase : ∀ t ∈ ts, namedType t.base ∈ u) {t : TypeExpr} (ht : t ∈ ts) :
    t.plain ∈ grow u ts := by
  obtain ⟨before, after, rfl⟩ := List.append_of_mem ht
  rw [grow_append, grow_cons]
  exact (prefix_grow _ after).subset (mem_grow_type ((prefix_grow u before).subset (hbase t ht)))

/-- Types are listed once, without spans, each after the type that it leads to. -/
structure Listed (u : List TypeExpr) : Prop where
  nodup : u.Nodup
  plain : ∀ t ∈ u, t.plain = t
  pointer : ∀ {t : TypeExpr}, .pointer t ∈ u → t ∈ u
  reference : ∀ {isMut : Bool} {t : TypeExpr}, .reference isMut t ∈ u → t ∈ u

namespace Listed
variable {u : List TypeExpr}

theorem named {names : List String} (h : names.Nodup) : Listed (names.map namedType) where
  nodup := h.map fun s s' hs => congrArg Name.text (TypeExpr.named.inj hs)
  plain := by simp [namedType, TypeExpr.plain, Name.plain]
  pointer := by simp [namedType]
  reference := by simp [namedType]

theorem enter (h : Listed u) {t : TypeExpr} (hplain : t.plain = t) (hpointer : ∀ {s}, t = .pointer s → s ∈ u)
    (hreference : ∀ {isMut s}, t = .reference isMut s → s ∈ u) : Listed (enter u t) := by
  rw [Text.enter]
  split
  · exact h
  next hnew =>
    have hmem : ∀ {s}, s ∈ u → s ∈ u ++ [t] := fun hs => List.mem_append_left _ hs
    refine ⟨?_, ?_, ?_, ?_⟩
    · rw [← List.concat_eq_append]
      exact h.nodup.concat hnew
    · simp only [List.mem_append, List.mem_singleton]
      rintro s (hs | rfl)
      · exact h.plain s hs
      · exact hplain
    · intro s hs
      rcases List.mem_append.1 hs with hs | hs
      · exact hmem (h.pointer hs)
      · exact hmem (hpointer (List.mem_singleton.1 hs).symm)
    · intro isMut s hs
      rcases List.mem_append.1 hs with hs | hs
      · exact hmem (h.reference hs)
      · exact hmem (hreference (List.mem_singleton.1 hs).symm)

theorem grow_type (h : Listed u) {t : TypeExpr} (hbase : namedType t.base ∈ u) : Listed (grow u [t]) := by
  induction t with
  | named name => exact h
  | pointer inner ih =>
    rw [grow_pointer]
    refine (ih hbase).enter (TypeExpr.plain_plain _) (fun hs => ?_) (fun hs => by cases hs)
    rw [← TypeExpr.pointer.inj hs]
    exact mem_grow_type hbase
  | reference isMut inner ih =>
    rw [grow_reference]
    refine (ih hbase).enter (TypeExpr.plain_plain _) (fun hs => by cases hs) (fun hs => ?_)
    rw [← (TypeExpr.reference.inj hs).2]
    exact mem_grow_type hbase

theorem grow (h : Listed u) {ts : List TypeExpr} (hbase : ∀ t ∈ ts, namedType t.base ∈ u) :
    Listed (grow u ts) := by
  induction ts generalizing u with
  | nil => exact h
  | cons t ts ih =>
    rw [List.forall_mem_cons] at hbase
    rw [grow_cons]
    exact ih (h.grow_type hbase.1) fun s hs => (prefix_grow u [t]).subset (hbase.2 s hs)

end Listed

end Text
end MovePlan
