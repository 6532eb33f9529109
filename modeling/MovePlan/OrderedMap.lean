import MovePlan.Order

set_option autoImplicit false

/-!
# Entries under distinct keys

An `OrderedMap` lists its entries in the order in which their keys first came.
Putting a value under a key that is present keeps the place of the key.
-/
namespace MovePlan

structure OrderedMap (κ α : Type) where
  entries : List (κ × α)
  nodup : (entries.map Prod.fst).Nodup

namespace OrderedMap
variable {κ α β : Type}

def empty : OrderedMap κ α := ⟨[], by simp⟩

instance : Inhabited (OrderedMap κ α) := ⟨empty⟩

def keys (m : OrderedMap κ α) : List κ := m.entries.map Prod.fst

def values (m : OrderedMap κ α) : List α := m.entries.map Prod.snd

def size (m : OrderedMap κ α) : Nat := m.entries.length

variable [DecidableEq κ]

def findIn (k : κ) : List (κ × α) → Option α
  | [] => none
  | e :: es => if e.1 = k then some e.2 else findIn k es

def get? (m : OrderedMap κ α) (k : κ) : Option α := findIn k m.entries

def contains (m : OrderedMap κ α) (k : κ) : Bool := (m.get? k).isSome

def putIn (k : κ) (v : α) : List (κ × α) → List (κ × α)
  | [] => [(k, v)]
  | e :: es => if e.1 = k then (k, v) :: es else e :: putIn k v es

theorem mem_keys_putIn (k : κ) (v : α) (es : List (κ × α)) (x : κ) :
    x ∈ (putIn k v es).map Prod.fst ↔ x = k ∨ x ∈ es.map Prod.fst := by
  induction es with
  | nil => simp [putIn]
  | cons e es ih =>
    by_cases h : e.1 = k
    · subst h
      simp [putIn]
    · simp only [putIn, h, ↓reduceIte, List.map_cons, List.mem_cons, ih]
      constructor
      · rintro (a | a | a) <;> simp [a]
      · rintro (a | a | a) <;> simp [a]

theorem nodup_putIn (k : κ) (v : α) (es : List (κ × α)) (h : (es.map Prod.fst).Nodup) :
    ((putIn k v es).map Prod.fst).Nodup := by
  induction es with
  | nil => simp [putIn]
  | cons e es ih =>
    rw [List.map_cons, List.nodup_cons] at h
    by_cases he : e.1 = k
    · subst he
      simpa [putIn] using h
    · simp only [putIn, he, ↓reduceIte, List.map_cons, List.nodup_cons]
      refine ⟨fun hm => ?_, ih h.2⟩
      rcases (mem_keys_putIn k v es e.1).1 hm with a | a
      · exact he a
      · exact h.1 a

/-- The value goes to the place of the key, or to the end if the key is new. -/
def put (m : OrderedMap κ α) (k : κ) (v : α) : OrderedMap κ α :=
  ⟨putIn k v m.entries, nodup_putIn k v m.entries m.nodup⟩

def ofList (es : List (κ × α)) : OrderedMap κ α :=
  es.foldl (fun m e => m.put e.1 e.2) empty

omit [DecidableEq κ] in
def mapEntries (f : κ → α → β) (m : OrderedMap κ α) : OrderedMap κ β :=
  ⟨m.entries.map fun e => (e.1, f e.1 e.2), by
    have h : (m.entries.map fun e => (e.1, f e.1 e.2)).map Prod.fst = m.entries.map Prod.fst := by
      simp [List.map_map, Function.comp_def]
    rw [h]
    exact m.nodup⟩

theorem findIn_putIn (k x : κ) (v : α) (es : List (κ × α)) :
    findIn x (putIn k v es) = if x = k then some v else findIn x es := by
  induction es with
  | nil =>
    by_cases h : x = k
    · subst h; simp [putIn, findIn]
    · simp [putIn, findIn, h, Ne.symm h]
  | cons e es ih =>
    by_cases he : e.1 = k
    · by_cases h : x = k
      · subst h; simp [putIn, findIn, he]
      · simp [putIn, findIn, he, h, Ne.symm h]
    · by_cases hx : e.1 = x
      · subst hx; simp [putIn, findIn, he]
      · simp [putIn, findIn, he, hx, ih]

omit [DecidableEq κ] in
theorem ext_entries {m m' : OrderedMap κ α} (h : m.entries = m'.entries) : m = m' := by
  cases m
  cases m'
  cases h
  rfl

theorem putIn_of_not_mem {k : κ} {v : α} {es : List (κ × α)} (h : k ∉ es.map Prod.fst) :
    putIn k v es = es ++ [(k, v)] := by
  induction es with
  | nil => rfl
  | cons e es ih =>
    rw [List.map_cons, List.mem_cons, not_or] at h
    rw [putIn, if_neg (Ne.symm h.1), ih h.2, List.cons_append]

theorem putIn_middle {k : κ} {v w : α} {es later : List (κ × α)} (h : k ∉ es.map Prod.fst) :
    putIn k v (es ++ (k, w) :: later) = es ++ (k, v) :: later := by
  induction es with
  | nil => simp [putIn]
  | cons e es ih =>
    rw [List.map_cons, List.mem_cons, not_or] at h
    rw [List.cons_append, putIn, if_neg (Ne.symm h.1), ih h.2, List.cons_append]

theorem entries_ofList {es : List (κ × α)} (h : (es.map Prod.fst).Nodup) : (ofList es).entries = es := by
  have main : ∀ (es : List (κ × α)) (m : OrderedMap κ α),
      ((m.entries ++ es).map Prod.fst).Nodup →
        (es.foldl (fun m e => m.put e.1 e.2) m).entries = m.entries ++ es := by
    intro es
    induction es with
    | nil => simp
    | cons e es ih =>
      intro m hm
      have hnew : e.1 ∉ m.entries.map Prod.fst := by
        rw [List.map_append, List.map_cons, List.nodup_append] at hm
        exact fun hmem => hm.2.2 _ hmem _ List.mem_cons_self rfl
      have hput : (m.put e.1 e.2).entries = m.entries ++ [e] := putIn_of_not_mem hnew
      rw [List.foldl_cons, ih, hput, List.append_assoc, List.singleton_append]
      rwa [hput, List.append_assoc, List.singleton_append]
  exact main es empty (by simpa [empty] using h)

theorem get?_put (m : OrderedMap κ α) (k x : κ) (v : α) :
    (m.put k v).get? x = if x = k then some v else m.get? x :=
  findIn_putIn k x v m.entries

theorem findIn_eq_some_iff (k : κ) (v : α) (es : List (κ × α)) (h : (es.map Prod.fst).Nodup) :
    findIn k es = some v ↔ (k, v) ∈ es := by
  induction es with
  | nil => simp [findIn]
  | cons e es ih =>
    rw [List.map_cons, List.nodup_cons] at h
    by_cases he : e.1 = k
    · subst he
      have hnot : (e.1, v) ∉ es := fun hm => h.1 (List.mem_map.2 ⟨_, hm, rfl⟩)
      simp only [findIn, ↓reduceIte, Option.some.injEq, List.mem_cons, hnot, or_false]
      exact ⟨fun hv => by rw [← hv], fun hv => congrArg Prod.snd hv.symm⟩
    · have hne : (k, v) ≠ e := fun hv => he (by rw [← hv])
      simp [findIn, he, hne, ih h.2]

theorem get?_eq_some_iff (m : OrderedMap κ α) (k : κ) (v : α) :
    m.get? k = some v ↔ (k, v) ∈ m.entries :=
  findIn_eq_some_iff k v m.entries m.nodup

theorem get?_ofList (es : List (κ × α)) (k : κ) : (ofList es).get? k = lastWrite k es := by
  have main : ∀ (es : List (κ × α)) (m : OrderedMap κ α),
      (es.foldl (fun m e => m.put e.1 e.2) m).get? k = (lastWrite k es).or (m.get? k) := by
    intro es
    induction es with
    | nil => intro m; rfl
    | cons e es ih =>
      intro m
      rw [List.foldl_cons, ih, get?_put, lastWrite_cons]
      by_cases h : k = e.1
      · simp [h]
      · simp [h, Ne.symm h]
  rw [ofList, main]
  exact Option.or_none

theorem mem_entries_ofList (es : List (κ × α)) (k : κ) (v : α) :
    (k, v) ∈ (ofList es).entries ↔ lastWrite k es = some v := by
  rw [← get?_eq_some_iff, get?_ofList]

theorem get?_mapEntries (f : κ → α → β) (m : OrderedMap κ α) (k : κ) :
    (m.mapEntries f).get? k = (m.get? k).map (f k) := by
  have main : ∀ es : List (κ × α),
      findIn k (es.map fun e => (e.1, f e.1 e.2)) = (findIn k es).map (f k) := by
    intro es
    induction es with
    | nil => rfl
    | cons e es ih =>
      by_cases h : e.1 = k
      · simp [findIn, h]
      · simp [findIn, h, ih]
  exact main m.entries

theorem contains_iff (m : OrderedMap κ α) (k : κ) : m.contains k = true ↔ k ∈ m.keys := by
  simp only [contains, keys, Option.isSome_iff_exists, get?_eq_some_iff, List.mem_map, Prod.exists,
    exists_and_right, exists_eq_right]

theorem mem_keys_put (m : OrderedMap κ α) (k x : κ) (v : α) :
    x ∈ (m.put k v).keys ↔ x = k ∨ x ∈ m.keys :=
  mem_keys_putIn k v m.entries x

end OrderedMap
end MovePlan
