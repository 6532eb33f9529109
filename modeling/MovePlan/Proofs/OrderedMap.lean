import MovePlan.OrderedMap

set_option autoImplicit false

namespace MovePlan

namespace OrderedMap
variable {κ α β : Type} [DecidableEq κ]

def putAll (m : OrderedMap κ α) (es : List (κ × α)) : OrderedMap κ α := es.foldl (fun m e => m.put e.1 e.2) m

theorem putAll_append (m : OrderedMap κ α) (es es' : List (κ × α)) :
    m.putAll (es ++ es') = (m.putAll es).putAll es' :=
  List.foldl_append

theorem ofList_append (es es' : List (κ × α)) : ofList (es ++ es') = (ofList es).putAll es' :=
  List.foldl_append

theorem mem_keys_putAll (m : OrderedMap κ α) (es : List (κ × α)) (k : κ) :
    k ∈ (m.putAll es).keys ↔ k ∈ m.keys ∨ k ∈ es.map Prod.fst := by
  induction es generalizing m with
  | nil => simp [putAll]
  | cons e es ih =>
    rw [putAll, List.foldl_cons, ← putAll, ih, mem_keys_put, List.map_cons, List.mem_cons, or_comm (a := k = e.1),
      or_assoc]

theorem keys_ofList (es : List (κ × α)) (k : κ) : k ∈ (ofList es).keys ↔ k ∈ es.map Prod.fst := by
  rw [ofList, ← putAll, mem_keys_putAll]
  simp [keys, empty]

theorem put_eq_mapEntries {m : OrderedMap κ α} {k : κ} {x : α} (hx : m.get? k = some x) (g : α → α) :
    m.put k (g x) = m.mapEntries fun n y => if n = k then g y else y := by
  have main : ∀ es : List (κ × α), (es.map Prod.fst).Nodup → findIn k es = some x →
      putIn k (g x) es = es.map fun e => (e.1, if e.1 = k then g e.2 else e.2) := by
    intro es
    induction es with
    | nil => exact fun _ h => by cases h
    | cons e es ih =>
      intro hes hfind
      rw [List.map_cons, List.nodup_cons] at hes
      rw [findIn] at hfind
      rw [putIn, List.map_cons]
      by_cases he : e.1 = k
      · rw [if_pos he] at hfind
        rw [if_pos he, if_pos he, Option.some.inj hfind, he]
        refine congrArg (List.cons _) ((List.map_congr_left fun e' he' => ?_).trans (List.map_id _)).symm
        rw [if_neg]
        · rfl
        · rintro rfl
          exact hes.1 (he ▸ List.mem_map_of_mem he')
      · rw [if_neg he] at hfind
        rw [if_neg he, if_neg he, ih hes.2 hfind]
  exact ext_entries (main m.entries m.nodup hx)

omit [DecidableEq κ] in
theorem mapEntries_mapEntries {γ : Type} (f : κ → α → β) (g : κ → β → γ) (m : OrderedMap κ α) :
    (m.mapEntries f).mapEntries g = m.mapEntries fun k x => g k (f k x) :=
  ext_entries (List.map_map ..)

theorem mapEntries_put (f : κ → α → β) (m : OrderedMap κ α) (k : κ) (v : α) :
    (m.put k v).mapEntries f = (m.mapEntries f).put k (f k v) := by
  have main : ∀ es : List (κ × α), (putIn k v es).map (fun e => (e.1, f e.1 e.2)) =
      putIn k (f k v) (es.map fun e => (e.1, f e.1 e.2)) := by
    intro es
    induction es with
    | nil => rfl
    | cons e es ih =>
      rw [putIn, List.map_cons, putIn]
      split
      · rw [List.map_cons]
      · rw [List.map_cons, ih]
  exact ext_entries (main m.entries)

theorem mapEntries_ofList (f : κ → α → β) (es : List (κ × α)) :
    (ofList es).mapEntries f = ofList (es.map fun e => (e.1, f e.1 e.2)) := by
  have main : ∀ m : OrderedMap κ α,
      (m.putAll es).mapEntries f = (m.mapEntries f).putAll (es.map fun e => (e.1, f e.1 e.2)) := by
    induction es with
    | nil => exact fun m => rfl
    | cons e es ih =>
      intro m
      rw [List.map_cons, putAll, List.foldl_cons, ← putAll, ih, mapEntries_put]
      rfl
  exact main empty

end OrderedMap

end MovePlan
