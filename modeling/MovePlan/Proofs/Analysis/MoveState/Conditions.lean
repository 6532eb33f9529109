import Mathlib.Order.BooleanAlgebra.Defs
import MovePlan.Analysis.MoveState
import MovePlan.Proofs.Answer
import MovePlan.Proofs.Flow.WellFormed

set_option autoImplicit false

namespace MovePlan

/-- The condition that one run leaves a place in. -/
inductive Condition
  | uninit
  | valid
  | moved
deriving DecidableEq

/-- What a site inside the region does to the condition of a place. -/
def conditionAfter (moves : List SiteId) (place : Place) (s : Site) (c : Condition) : Condition :=
  if s.binding ≠ some place.binding then c
  else match s.kind with
    | .decl => .valid
    | .write => if place.coveredBy s.path then .valid else c
    | .moveOut => if moves.contains s.id && place.coveredBy s.path then .moved else c
    | _ => c

/-- A transferring move-out that takes the value of the place. -/
def Takes (moves : List SiteId) (place : Place) (s : Site) : Prop :=
  s.id ∈ moves ∧ s.kind = .moveOut ∧ s.binding = some place.binding ∧ place.coveredBy s.path = true

/-- The site declares the binding, or writes over the whole place. -/
def Renews (place : Place) (s : Site) : Prop :=
  s.binding = some place.binding ∧
    (s.kind = .decl ∨ (s.kind = .write ∧ place.coveredBy s.path = true))

instance (moves : List SiteId) (place : Place) : DecidablePred (Takes moves place) := fun s =>
  inferInstanceAs (Decidable (s.id ∈ moves ∧ s.kind = .moveOut ∧ s.binding = some place.binding ∧
    place.coveredBy s.path = true))

instance (place : Place) : DecidablePred (Renews place) := fun s =>
  inferInstanceAs (Decidable (s.binding = some place.binding ∧
    (s.kind = .decl ∨ (s.kind = .write ∧ place.coveredBy s.path = true))))

/-- What an event does. Outside the region nothing is declared. -/
def conditionStep (moves : List SiteId) (place : Place) (b : Binding) (c : Condition) :
    TraceEvent → Condition
  | .enter id => if b.inRegion id then c else .uninit
  | .pass s => if b.inRegion s.block then conditionAfter moves place s c else c

/-- Parameters and captured bindings are alive when a run starts. -/
def Function.startCondition (f : Function) (place : Place) (b : Binding) : Condition :=
  if b.isParam || f.captures.contains place.binding then .valid else .uninit

def Function.conditionOn (f : Function) (moves : List SiteId) (place : Place) (b : Binding)
    (events : List TraceEvent) : Condition :=
  events.foldl (conditionStep moves place b) (f.startCondition place b)

namespace StateSet

def has (s : StateSet) : Condition → Bool
  | .uninit => s.uninit
  | .valid => s.valid
  | .moved => s.moved

instance : PartialOrder StateSet where
  le x y := ∀ c, x.has c ≤ y.has c
  le_refl x c := le_refl _
  le_trans _ _ _ h h' c := (h c).trans (h' c)
  le_antisymm x y h h' := by
    cases x
    cases y
    simp only [StateSet.mk.injEq]
    exact ⟨le_antisymm (h .moved) (h' .moved), le_antisymm (h .uninit) (h' .uninit),
      le_antisymm (h .valid) (h' .valid)⟩

theorem le_iff {x y : StateSet} : x ≤ y ↔ ∀ c, x.has c = true → y.has c = true :=
  forall_congr' fun _ => Bool.le_iff_imp

def rank (s : StateSet) : ℕ := s.moved.toNat + s.uninit.toNat + s.valid.toNat

theorem rank_le (s : StateSet) : s.rank ≤ 3 := by
  rcases s with ⟨_ | _, _ | _, _ | _⟩ <;> decide

theorem rank_strictMono : StrictMono rank := by
  intro x y h
  obtain ⟨hle, hnot⟩ := lt_iff_le_not_ge.1 h
  have hm := le_iff.1 hle .moved
  have hu := le_iff.1 hle .uninit
  have hv := le_iff.1 hle .valid
  have hne : x ≠ y := fun h => hnot (h ▸ le_refl _)
  rcases x with ⟨_ | _, _ | _, _ | _⟩ <;> rcases y with ⟨_ | _, _ | _, _ | _⟩ <;>
    simp_all [rank, has]

theorem empty_le (x : StateSet) : empty ≤ x := fun c => by cases c <;> exact Bool.false_le _

@[simp] theorem has_empty (c : Condition) : empty.has c = false := by cases c <;> rfl

@[simp] theorem has_onlyMoved (c : Condition) : onlyMoved.has c = true ↔ c = .moved := by
  cases c <;> simp [has, onlyMoved]

@[simp] theorem has_onlyUninit (c : Condition) : onlyUninit.has c = true ↔ c = .uninit := by
  cases c <;> simp [has, onlyUninit]

@[simp] theorem has_onlyValid (c : Condition) : onlyValid.has c = true ↔ c = .valid := by
  cases c <;> simp [has, onlyValid]

@[simp] theorem has_union (x y : StateSet) (c : Condition) :
    (x.union y).has c = true ↔ x.has c = true ∨ y.has c = true := by
  cases c <;> simp [has, union]

theorem has_foldl_union {ps : List BlockId} {out : BlockId → StateSet} {start : StateSet}
    {c : Condition} :
    (ps.foldl (fun acc p => acc.union (out p)) start).has c = true ↔
      start.has c = true ∨ ∃ p ∈ ps, (out p).has c = true := by
  induction ps generalizing start with
  | nil => simp
  | cons p ps ih => simp [ih, or_assoc]

theorem valid_iff_summary {s : StateSet} :
    s.valid = true ↔ s.summary = .valid ∨ s.summary = .maybe := by
  rcases s with ⟨_ | _, _ | _, _ | _⟩ <;> decide

theorem summary_of_moved {s : StateSet} (h : s.moved = true) :
    s.summary = .moved ∨ s.summary = .maybe := by
  rcases s with ⟨_ | _, _ | _, _ | _⟩ <;> revert h <;> decide

end StateSet

section Site
variable {moves : List SiteId} {place : Place} {s : Site}

theorem not_renews_of_takes (h : Takes moves place s) : ¬ Renews place s := by
  rintro ⟨_, hk | ⟨hk, _⟩⟩
  · rw [h.2.1] at hk
    cases hk
  · rw [h.2.1] at hk
    cases hk

theorem conditionAfter_of_takes (h : Takes moves place s) (c : Condition) :
    conditionAfter moves place s c = .moved := by
  obtain ⟨hid, hk, hn, hcov⟩ := h
  have hcontains : moves.contains s.id = true := by simpa using hid
  rw [conditionAfter, if_neg (by simpa using hn), hk]
  simp only [hcontains, hcov, Bool.and_self, ↓reduceIte]

theorem conditionAfter_of_renews (h : Renews place s) (c : Condition) :
    conditionAfter moves place s c = .valid := by
  obtain ⟨hn, hk | ⟨hk, hcov⟩⟩ := h
  · rw [conditionAfter, if_neg (by simpa using hn), hk]
  · rw [conditionAfter, if_neg (by simpa using hn), hk]
    simp only [hcov, ↓reduceIte]

theorem conditionAfter_of_not (htake : ¬ Takes moves place s) (hrenew : ¬ Renews place s)
    (c : Condition) : conditionAfter moves place s c = c := by
  rw [conditionAfter]
  split
  next => rfl
  next hn =>
    rw [ne_eq, Decidable.not_not] at hn
    split
    next hk => exact absurd ⟨hn, .inl hk⟩ hrenew
    next hk =>
      split
      next hcov => exact absurd ⟨hn, .inr ⟨hk, hcov⟩⟩ hrenew
      next => rfl
    next hk =>
      split
      next h =>
        rw [Bool.and_eq_true, List.contains_iff_mem] at h
        exact absurd ⟨h.1, hk, hn, h.2⟩ htake
      next => rfl
    next => rfl

theorem stateAfterSite_cases (moves : List SiteId) (place : Place) (s : Site) :
    (∃ v only, (∀ c, StateSet.has only c = true ↔ c = v) ∧
      (∀ x, stateAfterSite moves place s x = only) ∧ ∀ c, conditionAfter moves place s c = v) ∨
    (∀ x, stateAfterSite moves place s x = x) ∧ ∀ c, conditionAfter moves place s c = c := by
  by_cases hs : s.binding = some place.binding
  · simp only [stateAfterSite, conditionAfter, hs, ne_eq, not_true_eq_false, ↓reduceIte]
    cases s.kind with
    | decl => exact .inl ⟨.valid, .onlyValid, StateSet.has_onlyValid, fun _ => rfl, fun _ => rfl⟩
    | read => exact .inr ⟨fun _ => rfl, fun _ => rfl⟩
    | addrOf => exact .inr ⟨fun _ => rfl, fun _ => rfl⟩
    | write =>
      cases hcov : place.coveredBy s.path with
      | true => exact .inl ⟨.valid, .onlyValid, StateSet.has_onlyValid, fun _ => rfl, fun _ => rfl⟩
      | false => exact .inr ⟨fun _ => rfl, fun _ => rfl⟩
    | moveOut =>
      cases hcov : moves.contains s.id && place.coveredBy s.path with
      | true => exact .inl ⟨.moved, .onlyMoved, StateSet.has_onlyMoved, fun _ => rfl, fun _ => rfl⟩
      | false => exact .inr ⟨fun _ => rfl, fun _ => rfl⟩
  · exact .inr ⟨fun x => by rw [stateAfterSite, if_pos hs], fun c => by rw [conditionAfter, if_pos hs]⟩

theorem stateAfterSite_mono {x y : StateSet} (h : x ≤ y) :
    stateAfterSite moves place s x ≤ stateAfterSite moves place s y := by
  rcases stateAfterSite_cases moves place s with
    ⟨_, only, _, heq, _⟩ | ⟨heq, _⟩
  · rw [heq, heq]
  · rwa [heq, heq]

theorem has_stateAfterSite {x : StateSet} {c : Condition} (h : x.has c = true) :
    (stateAfterSite moves place s x).has (conditionAfter moves place s c) = true := by
  rcases stateAfterSite_cases moves place s with
    ⟨_, only, hone, heq, hc⟩ | ⟨heq, hc⟩
  · rw [heq, hc, hone]
  · rwa [heq, hc]

/-- A set of conditions that runs can have goes over into such a set. Some run comes to the site. -/
theorem of_has_stateAfterSite {x : StateSet} {W : Condition → Prop} (hsome : ∃ c, W c)
    (hx : ∀ c, x.has c = true → W c) {c : Condition}
    (h : (stateAfterSite moves place s x).has c = true) :
    ∃ c', W c' ∧ conditionAfter moves place s c' = c := by
  rcases stateAfterSite_cases moves place s with
    ⟨_, only, hone, heq, hc⟩ | ⟨heq, hc⟩
  · rw [heq, hone] at h
    obtain ⟨c₀, hc₀⟩ := hsome
    exact ⟨c₀, hc₀, by rw [hc, h]⟩
  · rw [heq] at h
    exact ⟨c, hx c h, hc c⟩

variable {sites : List Site}

theorem statesAfterSites_mono {x y : StateSet} (h : x ≤ y) :
    sites.foldl (fun states s => stateAfterSite moves place s states) x ≤
      sites.foldl (fun states s => stateAfterSite moves place s states) y := by
  induction sites generalizing x y with
  | nil => exact h
  | cons s sites ih => exact ih (stateAfterSite_mono h)

theorem has_statesAfterSites {x : StateSet} {c : Condition} (h : x.has c = true) :
    (sites.foldl (fun states s => stateAfterSite moves place s states) x).has
      (sites.foldl (fun c s => conditionAfter moves place s c) c) = true := by
  induction sites generalizing x c with
  | nil => exact h
  | cons s sites ih => exact ih (has_stateAfterSite h)

theorem of_has_statesAfterSites {x : StateSet} {W : Condition → Prop} (hsome : ∃ c, W c)
    (hx : ∀ c, x.has c = true → W c) {c : Condition}
    (h : (sites.foldl (fun states s => stateAfterSite moves place s states) x).has c = true) :
    ∃ c', W c' ∧ sites.foldl (fun c s => conditionAfter moves place s c) c' = c := by
  induction sites generalizing x W with
  | nil => exact ⟨c, hx c h, rfl⟩
  | cons s sites ih =>
    obtain ⟨c₀, hc₀⟩ := hsome
    obtain ⟨_, ⟨c', hc', rfl⟩, hc⟩ := ih (W := fun d => ∃ c', W c' ∧ conditionAfter moves place s c' = d)
      ⟨_, c₀, hc₀, rfl⟩ (fun d hd => of_has_stateAfterSite ⟨c₀, hc₀⟩ hx hd) h
    exact ⟨c', hc', hc⟩

theorem mem_statesAlong {x : StateSet} {p : SiteId × StateSet × StateSet} :
    p ∈ statesAlong moves place sites x ↔ ∃ pre s post, sites = pre ++ s :: post ∧
      s.binding = some place.binding ∧ p = (s.id,
        pre.foldl (fun states s => stateAfterSite moves place s states) x,
        stateAfterSite moves place s (pre.foldl (fun states s => stateAfterSite moves place s states) x)) := by
  induction sites generalizing x with
  | nil => simp [statesAlong]
  | cons s sites ih =>
    have hcons : p ∈ statesAlong moves place (s :: sites) x ↔
        (s.binding = some place.binding ∧ p = (s.id, x, stateAfterSite moves place s x)) ∨
          p ∈ statesAlong moves place sites (stateAfterSite moves place s x) := by
      simp only [statesAlong]
      split
      next hs => simp [hs]
      next hs => simp [hs]
    rw [hcons, ih]
    constructor
    · rintro (⟨hs, hp⟩ | ⟨pre, t, post, rfl, ht, hp⟩)
      · exact ⟨[], s, sites, rfl, hs, hp⟩
      · exact ⟨s :: pre, t, post, rfl, ht, hp⟩
    · rintro ⟨pre, t, post, hsplit, ht, hp⟩
      rcases pre with _ | ⟨y, pre⟩
      · rw [List.nil_append, List.cons.injEq] at hsplit
        obtain ⟨rfl, rfl⟩ := hsplit
        exact .inl ⟨ht, hp⟩
      · rw [List.cons_append, List.cons.injEq] at hsplit
        obtain ⟨rfl, rfl⟩ := hsplit
        exact .inr ⟨pre, t, post, rfl, ht, hp⟩

end Site

end MovePlan
