import Mathlib.Data.List.Forall2
import MovePlan.Flow.Fault

set_option autoImplicit false

namespace MovePlan
variable {ε α β : Type}

theorem bind_eq_ok {x : Except ε α} {g : α → Except ε β} {b : β} :
    (x >>= g) = .ok b ↔ ∃ a, x = .ok a ∧ g a = .ok b := by
  cases x with
  | error e => simp [bind, Except.bind]
  | ok a => simp [bind, Except.bind]

theorem map_eq_ok {x : Except ε α} {g : α → β} {b : β} : x.map g = .ok b ↔ ∃ a, x = .ok a ∧ g a = b := by
  cases x <;> simp [Except.map]

theorem pure_eq_ok {a b : α} : (pure a : Except ε α) = .ok b ↔ a = b := by
  simp [pure, Except.pure]

theorem exists_bind {x : Except ε α} {g : α → Except ε β} (hx : ∃ a, x = .ok a)
    (hg : ∀ a, x = .ok a → ∃ b, g a = .ok b) : ∃ b, (x >>= g) = .ok b := by
  obtain ⟨a, ha⟩ := hx
  obtain ⟨b, hb⟩ := hg a ha
  exact ⟨b, bind_eq_ok.2 ⟨a, ha, hb⟩⟩

theorem exists_pure {a : α} : ∃ b, (pure a : Except ε α) = .ok b := ⟨a, rfl⟩

theorem optionOr_eq_ok {e : Fault} {o : Option α} {a : α} : optionOr e o = .ok a ↔ o = some a := by
  cases o <;> simp [optionOr]

theorem liftType_eq_ok {x : Except TypeError α} {a : α} : liftType x = .ok a ↔ x = .ok a := by
  cases x <;> simp [liftType]

theorem exists_liftType {x : Except TypeError α} (h : ∃ a, x = .ok a) : ∃ a, liftType x = .ok a := by
  obtain ⟨a, ha⟩ := h
  exact ⟨a, liftType_eq_ok.2 ha⟩

theorem eq_ok_of_isOk [Inhabited α] {x : Except ε α} (h : x.isOk = true) :
    x = .ok (x.toOption.getD default) := by
  cases x with
  | error e => cases h
  | ok a => rfl

theorem mapM_eq_ok {g : α → Except ε β} {xs : List α} {ys : List β} :
    xs.mapM g = .ok ys ↔ List.Forall₂ (fun x y => g x = .ok y) xs ys := by
  induction xs generalizing ys with
  | nil =>
    rw [List.mapM_nil, pure_eq_ok, List.forall₂_nil_left_iff]
    exact eq_comm
  | cons x xs ih =>
    simp only [List.mapM_cons, bind_eq_ok, pure_eq_ok, ih, List.forall₂_cons_left_iff]
    constructor
    · rintro ⟨y, hy, ys', h, rfl⟩
      exact ⟨y, ys', hy, h, rfl⟩
    · rintro ⟨y, ys', hy, h, rfl⟩
      exact ⟨y, hy, ys', h, rfl⟩

theorem mapM_eq_some {g : α → Option β} {xs : List α} {ys : List β} :
    xs.mapM g = some ys ↔ List.Forall₂ (fun x y => g x = some y) xs ys := by
  induction xs generalizing ys with
  | nil =>
    rw [List.mapM_nil, List.forall₂_nil_left_iff]
    exact Option.some_inj.trans eq_comm
  | cons x xs ih =>
    simp only [List.mapM_cons, Option.bind_eq_bind, Option.bind_eq_some_iff, Option.pure_def,
      Option.some.injEq, ih, List.forall₂_cons_left_iff]
    constructor
    · rintro ⟨y, hy, ys', h, rfl⟩
      exact ⟨y, ys', hy, h, rfl⟩
    · rintro ⟨y, ys', hy, h, rfl⟩
      exact ⟨y, hy, ys', h, rfl⟩

theorem isSome_mapM {g : α → Option β} {xs : List α} :
    (xs.mapM g).isSome = true ↔ ∀ x ∈ xs, (g x).isSome = true := by
  induction xs with
  | nil => simp
  | cons x xs ih => cases hx : g x <;> cases hxs : xs.mapM g <;> simp_all

theorem exists_of_forall₂_left {R : α → β → Prop} {xs : List α} {ys : List β}
    (h : List.Forall₂ R xs ys) {x : α} (hx : x ∈ xs) : ∃ y ∈ ys, R x y := by
  induction h with
  | nil => simp at hx
  | cons hxy _ ih =>
    rcases List.mem_cons.1 hx with rfl | hx
    · exact ⟨_, List.mem_cons_self, hxy⟩
    · obtain ⟨y, hy, hR⟩ := ih hx
      exact ⟨y, List.mem_cons_of_mem _ hy, hR⟩

theorem exists_getElem?_of_forall₂ {R : α → β → Prop} {xs : List α} {ys : List β}
    (h : List.Forall₂ R xs ys) {i : ℕ} {x : α} (hx : xs[i]? = some x) :
    ∃ y, ys[i]? = some y ∧ R x y := by
  induction h generalizing i with
  | nil => simp at hx
  | cons hxy _ ih =>
    cases i with
    | zero =>
      rw [List.getElem?_cons_zero, Option.some.injEq] at hx
      exact ⟨_, rfl, hx ▸ hxy⟩
    | succ i => exact ih hx

theorem exists_of_forall₂_right {R : α → β → Prop} {xs : List α} {ys : List β}
    (h : List.Forall₂ R xs ys) {y : β} (hy : y ∈ ys) : ∃ x ∈ xs, R x y :=
  exists_of_forall₂_left (R := fun y x => R x y) h.flip hy

theorem forall₂_imp_of_mems {R S : α → β → Prop} {xs : List α} {ys : List β}
    (h : List.Forall₂ R xs ys) (himp : ∀ x ∈ xs, ∀ y ∈ ys, R x y → S x y) : List.Forall₂ S xs ys := by
  induction h with
  | nil => exact .nil
  | cons hxy _ ih =>
    refine .cons (himp _ List.mem_cons_self _ List.mem_cons_self hxy) (ih ?_)
    intro x hx y hy
    exact himp x (List.mem_cons_of_mem _ hx) y (List.mem_cons_of_mem _ hy)

theorem forall₂_imp_of_mem {R S : α → β → Prop} {xs : List α} {ys : List β}
    (h : List.Forall₂ R xs ys) (himp : ∀ x ∈ xs, ∀ y, R x y → S x y) : List.Forall₂ S xs ys :=
  forall₂_imp_of_mems h fun x hx y _ => himp x hx y

theorem forall₂_of_forall₂ {γ : Type} {R : α → β → Prop} {S : α → γ → Prop} {T : β → γ → Prop} {xs : List α}
    {ys : List β} {zs : List γ} (hR : List.Forall₂ R xs ys) (hS : List.Forall₂ S xs zs)
    (h : ∀ x ∈ xs, ∀ y z, R x y → S x z → T y z) : List.Forall₂ T ys zs := by
  induction hR generalizing zs with
  | nil =>
    cases hS
    exact .nil
  | cons hxy _ ih =>
    cases hS with
    | cons hxz hS =>
      exact .cons (h _ List.mem_cons_self _ _ hxy hxz) (ih hS fun x hx => h x (List.mem_cons_of_mem _ hx))

theorem forall₂_flatMap {γ : Type} {R : β → γ → Prop} {g : α → List β} {xs : List α} {yss : List (List γ)}
    (h : List.Forall₂ (fun x ys => List.Forall₂ R (g x) ys) xs yss) :
    List.Forall₂ R (xs.flatMap g) yss.flatten := by
  induction h with
  | nil => exact .nil
  | cons hx _ ih => exact List.rel_append hx ih

theorem mem_of_mapM {g : α → Except ε β} {xs : List α} {ys : List β} (h : xs.mapM g = .ok ys) {y : β}
    (hy : y ∈ ys) : ∃ x ∈ xs, g x = .ok y :=
  exists_of_forall₂_right (mapM_eq_ok.1 h) hy

theorem exists_mem_of_mapM {g : α → Except ε β} {xs : List α} {ys : List β}
    (h : xs.mapM g = .ok ys) {x : α} (hx : x ∈ xs) : ∃ y ∈ ys, g x = .ok y :=
  exists_of_forall₂_left (mapM_eq_ok.1 h) hx

theorem exists_mapM {g : α → Except ε β} {xs : List α} (h : ∀ x ∈ xs, ∃ y, g x = .ok y) :
    ∃ ys, xs.mapM g = .ok ys := by
  induction xs with
  | nil => exact ⟨[], rfl⟩
  | cons x xs ih =>
    obtain ⟨y, hy⟩ := h x List.mem_cons_self
    obtain ⟨ys, hys⟩ := ih fun z hz => h z (List.mem_cons_of_mem _ hz)
    exact ⟨y :: ys, mapM_eq_ok.2 (.cons hy (mapM_eq_ok.1 hys))⟩

/-- Two functions whose answers are related entry by entry have related answers on a list. -/
theorem exists_mapM_forall₂ {γ : Type} {R : β → γ → Prop} {g : α → Except ε β} {k : α → Except ε γ}
    {xs : List α} {ys : List β} (h : xs.mapM g = .ok ys)
    (hg : ∀ x ∈ xs, ∀ y, g x = .ok y → ∃ z, k x = .ok z ∧ R y z) :
    ∃ zs, xs.mapM k = .ok zs ∧ List.Forall₂ R ys zs := by
  replace h := mapM_eq_ok.1 h
  simp only [mapM_eq_ok]
  induction h with
  | nil => exact ⟨[], .nil, .nil⟩
  | cons hx _ ih =>
    obtain ⟨z, hz, hr⟩ := hg _ List.mem_cons_self _ hx
    obtain ⟨zs, hzs, hrs⟩ := ih fun x hmem => hg x (List.mem_cons_of_mem _ hmem)
    exact ⟨z :: zs, .cons hz hzs, .cons hr hrs⟩

theorem mapM_congr {g g' : α → Except ε β} {xs : List α} (h : ∀ x ∈ xs, g x = g' x) :
    xs.mapM g = xs.mapM g' := by
  induction xs with
  | nil => rfl
  | cons x xs ih =>
    rw [List.mapM_cons, List.mapM_cons, h x List.mem_cons_self,
      ih fun z hz => h z (List.mem_cons_of_mem _ hz)]

theorem exists_anyM {g : α → Except ε Bool} {xs : List α} (h : ∀ x ∈ xs, ∃ y, g x = .ok y) :
    ∃ y, xs.anyM g = .ok y := by
  induction xs with
  | nil => exact ⟨false, rfl⟩
  | cons x xs ih =>
    obtain ⟨y, hy⟩ := h x List.mem_cons_self
    obtain ⟨z, hz⟩ := ih fun z hz => h z (List.mem_cons_of_mem _ hz)
    rw [List.anyM, hy]
    cases y with
    | true => exact ⟨true, rfl⟩
    | false => exact ⟨z, hz⟩

end MovePlan
