import Mathlib.Order.Monotone.Basic
import Mathlib.Order.Basic
import Mathlib.Tactic.Linarith
import MovePlan.Flow.Fixpoint

set_option autoImplicit false

/-!
# Sweeps reach a fixed point

A sweep recomputes the values in place, one key after the other. If it changes nothing, every value
satisfies its equation. If every change lowers the weight of a value, the sweeps stop, and no more of
them change something than the start weighs. For a monotone update that starts at the bottom the ranks
of the values give such a weight.
-/
namespace MovePlan.ValueTable
variable {κ α : Type}

def keys (t : ValueTable κ α) : List κ := t.map Prod.fst

@[simp] theorem keys_fill (ks : List κ) (v : κ → α) : (fill ks v).keys = ks := by
  simp [keys, fill, List.map_map, Function.comp_def]

variable [DecidableEq κ]

@[simp] theorem keys_set (t : ValueTable κ α) (k : κ) (v : α) : (t.set k v).keys = t.keys := by
  induction t with
  | nil => rfl
  | cons e es ih =>
    by_cases h : e.1 = k
    · simp [set, keys, h]
    · simpa [set, keys, h] using ih

theorem at?_fill (d : α) (ks : List κ) (v : κ → α) (k : κ) :
    (fill ks v).at? d k = if k ∈ ks then v k else d := by
  induction ks with
  | nil => rfl
  | cons x xs ih =>
    by_cases h : x = k
    · simp [fill, at?, h]
    · simpa [fill, at?, h, Ne.symm h] using ih

theorem at?_set (d : α) (t : ValueTable κ α) (k j : κ) (v : α) (hk : k ∈ t.keys) :
    (t.set k v).at? d j = if j = k then v else t.at? d j := by
  induction t with
  | nil => simp [keys] at hk
  | cons e es ih =>
    by_cases he : e.1 = k
    · by_cases hj : j = k
      · simp [set, at?, he, hj]
      · simp [set, at?, he, hj, Ne.symm hj]
    · have hk' : k ∈ keys es := by simpa [keys, Ne.symm he] using hk
      by_cases hj : e.1 = j
      · have hne : j ≠ k := fun h => he (hj.trans h)
        simp [set, at?, hj, hne]
      · simpa [set, at?, he, hj] using ih hk'

theorem at?_of_mem (d : α) {t : ValueTable κ α} (h : t.keys.Nodup) {e : κ × α} (he : e ∈ t) :
    t.at? d e.1 = e.2 := by
  induction t with
  | nil => simp at he
  | cons x xs ih =>
    rw [keys, List.map_cons, List.nodup_cons] at h
    rcases List.mem_cons.1 he with rfl | he
    · simp [at?]
    · have hne : x.1 ≠ e.1 := fun hx => h.1 (hx ▸ List.mem_map_of_mem he)
      simpa [at?, hne] using ih h.2 he

theorem mem_of_mem_keys (d : α) {t : ValueTable κ α} {k : κ} (hk : k ∈ t.keys) :
    (k, t.at? d k) ∈ t := by
  induction t with
  | nil => simp [keys] at hk
  | cons e es ih =>
    by_cases he : e.1 = k
    · simp [at?, ← he]
    · have hk' : k ∈ keys es := by simpa [keys, Ne.symm he] using hk
      simpa [at?, he] using .inr (ih hk')

theorem set_at? (d : α) (t : ValueTable κ α) (k : κ) : t.set k (t.at? d k) = t := by
  induction t with
  | nil => rfl
  | cons e es ih =>
    by_cases h : e.1 = k
    · simp [set, at?, ← h]
    · simpa [set, at?, h] using ih

section Sweep
variable (d : α) (update : (κ → α) → κ → α)

theorem sweep_cons (k : κ) (order : List κ) (t : ValueTable κ α) :
    t.sweep d update (k :: order) = (t.set k (update (t.at? d) k)).sweep d update order := rfl

theorem sweep_invariant {P : ValueTable κ α → Prop} {order : List κ}
    (step : ∀ t, ∀ k ∈ order, P t → P (t.set k (update (t.at? d) k)))
    {t : ValueTable κ α} (h : P t) : P (t.sweep d update order) := by
  induction order generalizing t with
  | nil => exact h
  | cons k order ih =>
    rw [sweep_cons]
    exact ih (fun t j hj => step t j (List.mem_cons_of_mem _ hj)) (step t k List.mem_cons_self h)

@[simp] theorem keys_sweep (order : List κ) (t : ValueTable κ α) :
    (t.sweep d update order).keys = t.keys :=
  sweep_invariant d update (fun s k _ h => (keys_set s k _).trans h) rfl

theorem at?_sweep_of_notMem {order : List κ} {t : ValueTable κ α} (ho : ∀ k ∈ order, k ∈ t.keys)
    {j : κ} (hj : j ∉ order) : (t.sweep d update order).at? d j = t.at? d j := by
  induction order generalizing t with
  | nil => rfl
  | cons k order ih =>
    rw [List.mem_cons, not_or] at hj
    have hk : k ∈ t.keys := ho k List.mem_cons_self
    rw [sweep_cons, ih (fun x hx => by simpa using ho x (List.mem_cons_of_mem _ hx)) hj.2,
      at?_set d t k j _ hk, if_neg hj.1]

theorem fixed_of_sweep_eq {order : List κ} {t : ValueTable κ α} (ho : ∀ k ∈ order, k ∈ t.keys)
    (hnodup : order.Nodup) (h : t.sweep d update order = t) :
    ∀ k ∈ order, t.at? d k = update (t.at? d) k := by
  induction order with
  | nil => simp
  | cons k order ih =>
    rw [List.nodup_cons] at hnodup
    rw [sweep_cons] at h
    have hk : k ∈ t.keys := ho k List.mem_cons_self
    have hvalue : t.at? d k = update (t.at? d) k := by
      have hlast := at?_sweep_of_notMem d update (t := t.set k (update (t.at? d) k))
        (fun x hx => by simpa using ho x (List.mem_cons_of_mem _ hx)) hnodup.1
      rw [h, at?_set d t k k _ hk, if_pos rfl] at hlast
      exact hlast
    have hsame : t.set k (update (t.at? d) k) = t := by rw [← hvalue, set_at?]
    rw [hsame] at h
    intro j hj
    rcases List.mem_cons.1 hj with rfl | hj
    · exact hvalue
    · exact ih (fun x hx => ho x (List.mem_cons_of_mem _ hx)) hnodup.2 h j hj

variable [DecidableEq α]

theorem settle_invariant {P : ValueTable κ α → Prop} {order : List κ}
    (step : ∀ t, ∀ k ∈ order, P t → P (t.set k (update (t.at? d) k)))
    (rounds : ℕ) {t : ValueTable κ α} (h : P t) : P (t.settle d update order rounds) := by
  induction rounds generalizing t with
  | zero => exact h
  | succ rounds ih =>
    simp only [settle]
    split
    · exact h
    · exact ih (sweep_invariant d update step h)

@[simp] theorem keys_settle (order : List κ) (rounds : ℕ) (t : ValueTable κ α) :
    (t.settle d update order rounds).keys = t.keys :=
  settle_invariant d update (fun s k _ h => (keys_set s k _).trans h) rounds rfl

def weigh (weight : κ → α → ℕ) (t : ValueTable κ α) : ℕ := (t.map fun e => weight e.1 e.2).sum

omit [DecidableEq κ] [DecidableEq α] in
theorem weigh_le {weight : κ → α → ℕ} {height : ℕ} {t : ValueTable κ α}
    (h : ∀ e ∈ t, weight e.1 e.2 ≤ height) : t.weigh weight ≤ height * t.keys.length := by
  induction t with
  | nil => simp [weigh]
  | cons e es ih =>
    have he := h e List.mem_cons_self
    have hes := ih fun x hx => h x (List.mem_cons_of_mem _ hx)
    simp only [weigh, keys, List.map_cons, List.sum_cons, List.length_cons, Nat.mul_succ] at hes ⊢
    omega

omit [DecidableEq α] in
theorem weigh_set (weight : κ → α → ℕ) (t : ValueTable κ α) (k : κ) (v : α) (hk : k ∈ t.keys) :
    (t.set k v).weigh weight + weight k (t.at? d k) = t.weigh weight + weight k v := by
  induction t with
  | nil => simp [keys] at hk
  | cons e es ih =>
    by_cases he : e.1 = k
    · simp only [set, at?, he, ↓reduceIte, weigh, List.map_cons, List.sum_cons]
      omega
    · have hk' : k ∈ keys es := by simpa [keys, Ne.symm he] using hk
      have hrest := ih hk'
      simp only [set, at?, he, ↓reduceIte, weigh, List.map_cons, List.sum_cons] at hrest ⊢
      omega

omit [DecidableEq α] in
theorem weigh_sweep {P : ValueTable κ α → Prop} {weight : κ → α → ℕ} {whole order : List κ}
    (hkeys : ∀ t, P t → ∀ k ∈ whole, k ∈ t.keys)
    (step : ∀ t, ∀ k ∈ whole, P t → P (t.set k (update (t.at? d) k)))
    (lower : ∀ t, ∀ k ∈ whole, P t → update (t.at? d) k = t.at? d k ∨
      weight k (update (t.at? d) k) < weight k (t.at? d k))
    (hsub : ∀ k ∈ order, k ∈ whole) {t : ValueTable κ α} (h : P t) :
    t.sweep d update order = t ∨ (t.sweep d update order).weigh weight < t.weigh weight := by
  induction order generalizing t with
  | nil => exact .inl rfl
  | cons k order ih =>
    have hk : k ∈ whole := hsub k List.mem_cons_self
    have hrest := ih (fun j hj => hsub j (List.mem_cons_of_mem _ hj)) (step t k hk h)
    have hset := weigh_set d weight t k (update (t.at? d) k) (hkeys t h k hk)
    rw [sweep_cons]
    rcases lower t k hk h with heq | hlt
    · -- the value stays, and so does the table that the rest of the sweep starts from
      rw [heq, set_at?] at hrest ⊢
      exact hrest
    · rcases hrest with hr | hr
      · rw [hr]
        exact .inr (by omega)
      · exact .inr (by omega)

/-- Replaces the value under a key if it differs from its recomputation, and then raises the flag. -/
def revise (r : ValueTable κ α × Bool) (k : κ) : ValueTable κ α × Bool :=
  let v := update (r.1.at? d) k
  if v = r.1.at? d k then r else (r.1.set k v, true)

/-- One round revises every value in turn. It starts with a lowered flag. -/
def round (order : List κ) (t : ValueTable κ α) : ValueTable κ α × Bool :=
  order.foldl (revise d update) (t, false)

/-- Rounds are made until one leaves the flag lowered; the number counts those that raise it. -/
inductive Rounds (order : List κ) : ValueTable κ α → ℕ → ValueTable κ α → Prop
  | stop {t u : ValueTable κ α} (h : t.round d update order = (u, false)) : Rounds order t 0 u
  | again {t t' u : ValueTable κ α} {n : ℕ} (h : t.round d update order = (t', true))
    (rest : Rounds order t' n u) : Rounds order t (n + 1) u

theorem foldl_revise {order : List κ} {t : ValueTable κ α} (ho : ∀ k ∈ order, k ∈ t.keys)
    (hnodup : order.Nodup) (changed : Bool) : order.foldl (revise d update) (t, changed) =
      (t.sweep d update order, changed || decide (t.sweep d update order ≠ t)) := by
  induction order generalizing t changed with
  | nil => simp [sweep]
  | cons k order ih =>
    rw [List.nodup_cons] at hnodup
    have hk : k ∈ t.keys := ho k List.mem_cons_self
    have hrest : ∀ j ∈ order, j ∈ t.keys := fun j hj => ho j (List.mem_cons_of_mem _ hj)
    rw [List.foldl_cons, sweep_cons, revise]
    by_cases hv : update (t.at? d) k = t.at? d k
    · rw [if_pos hv, ih hrest hnodup.2, hv, set_at?]
    · have hlast := at?_sweep_of_notMem d update (t := t.set k (update (t.at? d) k))
        (fun j hj => by simpa using hrest j hj) hnodup.1
      rw [at?_set d t k k _ hk, if_pos rfl] at hlast
      have hne : (t.set k (update (t.at? d) k)).sweep d update order ≠ t := by
        intro heq
        rw [heq] at hlast
        exact hv hlast.symm
      rw [if_neg hv, ih (fun j hj => by simpa using hrest j hj) hnodup.2, Bool.true_or,
        decide_eq_true hne, Bool.or_true]

theorem round_eq {order : List κ} {t : ValueTable κ α} (ho : ∀ k ∈ order, k ∈ t.keys)
    (hnodup : order.Nodup) :
    t.round d update order = (t.sweep d update order, decide (t.sweep d update order ≠ t)) := by
  rw [round, foldl_revise d update ho hnodup, Bool.false_or]

variable {d update} in
theorem Rounds.fixed {order : List κ} {t u : ValueTable κ α} {n : ℕ} (h : Rounds d update order t n u)
    (ho : ∀ k ∈ order, k ∈ t.keys) (hnodup : order.Nodup) :
    ∀ k ∈ order, u.at? d k = update (u.at? d) k := by
  induction h with
  | stop h =>
    rw [round_eq d update ho hnodup, Prod.mk.injEq, decide_eq_false_iff_not, not_not] at h
    obtain ⟨rfl, hsame⟩ := h
    rw [hsame]
    exact fixed_of_sweep_eq d update ho hnodup hsame
  | again h _ ih =>
    rw [round_eq d update ho hnodup, Prod.mk.injEq] at h
    obtain ⟨rfl, -⟩ := h
    exact ih fun k hk => by simpa using ho k hk

section Lowering
variable {P : ValueTable κ α → Prop} {weight : κ → α → ℕ} {order : List κ}
  (hkeys : ∀ t, P t → ∀ k ∈ order, k ∈ t.keys)
  (step : ∀ t, ∀ k ∈ order, P t → P (t.set k (update (t.at? d) k)))
  (lower : ∀ t, ∀ k ∈ order, P t → update (t.at? d) k = t.at? d k ∨
    weight k (update (t.at? d) k) < weight k (t.at? d k))
  (hnodup : order.Nodup) (rounds : ℕ) {t : ValueTable κ α} (h : P t) (hm : t.weigh weight < rounds)
include hkeys step lower hnodup h hm

/-- With more sweeps than the start weighs the rounds come to their end, and of them no more change
something than the start weighs. -/
theorem rounds_settle :
    ∃ n ≤ t.weigh weight, Rounds d update order t n (t.settle d update order rounds) := by
  induction rounds generalizing t with
  | zero => omega
  | succ rounds ih =>
    have hround := round_eq d update (hkeys t h) hnodup
    by_cases hs : t.sweep d update order = t
    · simp only [hs, ne_eq, not_true_eq_false, decide_false] at hround
      simp only [settle, hs, ↓reduceIte]
      exact ⟨0, Nat.zero_le _, .stop hround⟩
    · have hlt := (weigh_sweep d update hkeys step lower (fun _ hj => hj) h).resolve_left hs
      rw [decide_eq_true hs] at hround
      simp only [settle, hs, ↓reduceIte]
      obtain ⟨n, hn, hrest⟩ := ih (sweep_invariant d update step h) (by omega)
      exact ⟨n + 1, by omega, .again hround hrest⟩

end Lowering

end Sweep

section Ascent
variable [PartialOrder α] {d : α} {update : (κ → α) → κ → α}

variable (d update) in
/-- No value is above its recomputation. -/
def Ascending (order : List κ) (t : ValueTable κ α) : Prop :=
  (∀ k ∈ order, k ∈ t.keys) ∧ ∀ k ∈ order, t.at? d k ≤ update (t.at? d) k

theorem Ascending.set {order : List κ} (hmono : Monotone update) {t : ValueTable κ α}
    (h : t.Ascending d update order) {k : κ} (hk : k ∈ order) :
    (t.set k (update (t.at? d) k)).Ascending d update order := by
  have hraise : ∀ j, t.at? d j ≤ (t.set k (update (t.at? d) k)).at? d j := by
    intro j
    rw [at?_set d t k j _ (h.1 k hk)]
    split
    next hj => rw [hj]; exact h.2 k hk
    next => exact le_refl _
  refine ⟨fun j hj => by simpa using h.1 j hj, fun j hj => ?_⟩
  have hle : update (t.at? d) j ≤ update ((t.set k (update (t.at? d) k)).at? d) j := hmono hraise j
  refine le_trans ?_ hle
  rw [at?_set d t k j _ (h.1 k hk)]
  split
  next hj => rw [hj]
  next => exact h.2 j hj

variable [DecidableEq α]

omit [DecidableEq α] in
theorem Ascending.lower {rank : α → ℕ} (hrank : StrictMono rank) {height : ℕ}
    (hheight : ∀ a, rank a ≤ height) {order : List κ} {t : ValueTable κ α}
    (h : t.Ascending d update order) {k : κ} (hk : k ∈ order) : update (t.at? d) k = t.at? d k ∨
      height - rank (update (t.at? d) k) < height - rank (t.at? d k) := by
  rcases (h.2 k hk).eq_or_lt with heq | hlt
  · exact .inl heq.symm
  · have hr := hrank hlt
    have hb := hheight (update (t.at? d) k)
    exact .inr (Nat.sub_lt_sub_left (hr.trans_le hb) hr)

section Bottom
variable {rank : α → ℕ} (hrank : StrictMono rank) {height : ℕ} (hheight : ∀ a, rank a ≤ height)
  (hmono : Monotone update) (hbot : ∀ a, d ≤ a) {ks order : List κ} (horder : ∀ k ∈ order, k ∈ ks)
  (hnodup : order.Nodup)
include hrank hheight hmono hbot horder hnodup

/-- From the bottom the rounds of a monotone update stop, and no more of them change something than the
ranks allow. -/
theorem rounds_of_mono : ∃ n ≤ height * ks.length, Rounds d update order (fill ks fun _ => d) n
    ((fill ks fun _ => d).settle d update order (height * ks.length + 1)) := by
  let start : ValueTable κ α := fill ks fun _ => d
  have hstart : start.Ascending d update order := by
    refine ⟨by simpa [start] using horder, fun j hj => ?_⟩
    rw [at?_fill, if_pos (horder j hj)]
    exact hbot _
  have hweight : start.weigh (fun _ a => height - rank a) ≤ height * ks.length := by
    have hle : start.weigh (fun _ a => height - rank a) ≤ height * start.keys.length :=
      weigh_le fun e _ => Nat.sub_le height (rank e.2)
    rwa [keys_fill] at hle
  obtain ⟨n, hn, hrounds⟩ := rounds_settle d update (fun t h => h.1) (fun t j hj h => h.set hmono hj)
    (fun t j hj h => h.lower hrank hheight hj) hnodup _ hstart (Nat.lt_succ_of_le hweight)
  exact ⟨n, hn.trans hweight, hrounds⟩

end Bottom

end Ascent

/-- What holds of the bottom and of every recomputation holds of the settled values. -/
theorem settle_induction [DecidableEq α] {d : α} {update : (κ → α) → κ → α} {P : κ → α → Prop}
    (hbot : ∀ k, P k d) {ks order : List κ} (horder : ∀ k ∈ order, k ∈ ks)
    (closed : ∀ x : κ → α, (∀ k, P k (x k)) → ∀ k ∈ order, P k (update x k))
    (rounds : ℕ) (k : κ) : P k (((fill ks fun _ => d).settle d update order rounds).at? d k) := by
  let Q : ValueTable κ α → Prop := fun t => t.keys = ks ∧ ∀ j, P j (t.at? d j)
  have hQ : Q (fill ks fun _ => d) := by
    refine ⟨keys_fill ks _, fun j => ?_⟩
    rw [at?_fill, ite_self]
    exact hbot j
  have step : ∀ t, ∀ j ∈ order, Q t → Q (t.set j (update (t.at? d) j)) := by
    intro t j hj h
    refine ⟨(keys_set t j _).trans h.1, fun i => ?_⟩
    rw [at?_set d t j i _ (h.1 ▸ horder j hj)]
    split
    next hi => rw [hi]; exact closed _ h.2 j hj
    next => exact h.2 i
  exact (settle_invariant d update step rounds hQ).2 k

end MovePlan.ValueTable
