set_option autoImplicit false

namespace MovePlan

def insertBy {α : Type} (le : α → α → Bool) (x : α) : List α → List α
  | [] => [x]
  | y :: ys => if le x y then x :: y :: ys else y :: insertBy le x ys

/-- Equal entries keep their order. -/
def sortBy {α : Type} (le : α → α → Bool) (xs : List α) : List α :=
  xs.foldr (insertBy le) []

def sortInts (xs : List Int) : List Int := sortBy (fun a b => decide (a ≤ b)) xs

/-- Names are ordered by code points. -/
def nameLe (a b : String) : Bool := !decide (b < a)

def sortNames (xs : List String) : List String := sortBy nameLe xs

def pathLe (a b : List String) : Bool := !decide (b < a)

/-- The distinct entries of a list, each where it first stands. -/
def distinct {α : Type} [DecidableEq α] (xs : List α) : List α :=
  xs.foldl (fun seen x => if x ∈ seen then seen else seen ++ [x]) []

/-- The last value that was written under a key, where `writes` lists the writes in order. -/
def lastWrite {κ α : Type} [DecidableEq κ] (k : κ) (writes : List (κ × α)) : Option α :=
  writes.foldl (fun found w => if w.1 = k then some w.2 else found) none

/-- The entry at a position; a negative position counts from the end. -/
def entryAt? {α : Type} (xs : List α) (i : Int) : Option α :=
  if 0 ≤ i then xs[i.toNat]? else if 0 ≤ i + xs.length then xs[(i + xs.length).toNat]? else none

def entriesFrom {α : Type} (xs : List α) (i : Int) : List α :=
  xs.drop (if 0 ≤ i then i else i + xs.length).toNat

theorem mem_insertBy {α : Type} (le : α → α → Bool) (x y : α) (xs : List α) :
    y ∈ insertBy le x xs ↔ y = x ∨ y ∈ xs := by
  induction xs with
  | nil => simp [insertBy]
  | cons z zs ih =>
    by_cases h : le x z
    · simp [insertBy, h]
    · simp only [insertBy, h, Bool.false_eq_true, ↓reduceIte, List.mem_cons, ih]
      constructor
      · rintro (a | a | a) <;> simp [a]
      · rintro (a | a | a) <;> simp [a]

theorem mem_sortBy {α : Type} (le : α → α → Bool) (y : α) (xs : List α) :
    y ∈ sortBy le xs ↔ y ∈ xs := by
  induction xs with
  | nil => simp [sortBy]
  | cons x xs ih =>
    rw [show sortBy le (x :: xs) = insertBy le x (sortBy le xs) from rfl, mem_insertBy, ih,
      List.mem_cons]

theorem insertBy_perm {α : Type} (le : α → α → Bool) (x : α) (xs : List α) :
    (insertBy le x xs).Perm (x :: xs) := by
  induction xs with
  | nil => exact .refl _
  | cons y ys ih =>
    by_cases h : le x y
    · simp [insertBy, h]
    · simp only [insertBy, h, Bool.false_eq_true, ↓reduceIte]
      exact (ih.cons y).trans (.swap x y ys)

theorem sortBy_perm {α : Type} (le : α → α → Bool) (xs : List α) : (sortBy le xs).Perm xs := by
  induction xs with
  | nil => exact .refl _
  | cons x xs ih => exact (insertBy_perm le x (sortBy le xs)).trans (ih.cons x)

theorem mem_distinct {α : Type} [DecidableEq α] (x : α) (xs : List α) :
    x ∈ distinct xs ↔ x ∈ xs := by
  have main : ∀ (xs seen : List α),
      x ∈ xs.foldl (fun seen y => if y ∈ seen then seen else seen ++ [y]) seen ↔
        x ∈ seen ∨ x ∈ xs := by
    intro xs
    induction xs with
    | nil => simp
    | cons y ys ih =>
      intro seen
      rw [List.foldl_cons, ih, List.mem_cons]
      by_cases hy : y ∈ seen
      · simp only [hy, ↓reduceIte]
        exact ⟨fun h => h.elim .inl (.inr ∘ .inr),
          fun h => h.elim .inl (fun h => h.elim (fun e => .inl (e ▸ hy)) .inr)⟩
      · simp only [hy, ↓reduceIte, List.mem_append, List.mem_singleton, or_assoc]
  simpa [distinct] using main xs []

theorem foldl_lastWrite {κ α : Type} [DecidableEq κ] (k : κ) (xs : List (κ × α))
    (found : Option α) :
    xs.foldl (fun found w => if w.1 = k then some w.2 else found) found =
      (lastWrite k xs).or found := by
  induction xs generalizing found with
  | nil => rfl
  | cons x xs ih =>
    rw [lastWrite, List.foldl_cons, List.foldl_cons, ih, ih (if x.1 = k then some x.2 else none)]
    by_cases h : x.1 = k <;> simp [h]

theorem lastWrite_cons {κ α : Type} [DecidableEq κ] (k : κ) (x : κ × α) (xs : List (κ × α)) :
    lastWrite k (x :: xs) = (lastWrite k xs).or (if x.1 = k then some x.2 else none) := by
  rw [lastWrite, List.foldl_cons, foldl_lastWrite]

theorem lastWrite_concat {κ α : Type} [DecidableEq κ] (k : κ) (writes : List (κ × α)) (w : κ × α) :
    lastWrite k (writes ++ [w]) = if w.1 = k then some w.2 else lastWrite k writes := by
  simp [lastWrite]

theorem mem_of_lastWrite {κ α : Type} [DecidableEq κ] {k : κ} {v : α} {xs : List (κ × α)}
    (h : lastWrite k xs = some v) : (k, v) ∈ xs := by
  induction xs with
  | nil => simp [lastWrite] at h
  | cons x xs ih =>
    rw [lastWrite_cons, Option.or_eq_some_iff] at h
    rcases h with h | ⟨_, h⟩
    · exact List.mem_cons_of_mem _ (ih h)
    · by_cases hx : x.1 = k
      · simp only [hx, ↓reduceIte, Option.some.injEq] at h
        exact List.mem_cons.2 (.inl (by rw [← hx, ← h]))
      · simp [hx] at h

theorem exists_lastWrite {κ α : Type} [DecidableEq κ] {k : κ} {v : α} {xs : List (κ × α)}
    (h : (k, v) ∈ xs) : ∃ w, lastWrite k xs = some w := by
  obtain ⟨pre, post, rfl⟩ := List.append_of_mem h
  rw [lastWrite, List.foldl_append, List.foldl_cons, foldl_lastWrite, if_pos rfl]
  cases lastWrite k post with
  | none => exact ⟨v, rfl⟩
  | some w => exact ⟨w, rfl⟩

theorem lastWrite_eq_some {κ α : Type} [DecidableEq κ] {k : κ} {v : α} {xs : List (κ × α)}
    (h : (k, v) ∈ xs) (huniq : ∀ w, (k, w) ∈ xs → w = v) : lastWrite k xs = some v := by
  cases hw : lastWrite k xs with
  | some w => rw [huniq w (mem_of_lastWrite hw)]
  | none =>
    exfalso
    induction xs with
    | nil => simp at h
    | cons x xs ih =>
      rw [lastWrite_cons, Option.or_eq_none_iff] at hw
      rcases List.mem_cons.1 h with rfl | h
      · simp at hw
      · exact ih h (fun w hm => huniq w (List.mem_cons_of_mem _ hm)) hw.1

end MovePlan
