import MovePlan.Proofs.Answer
import MovePlan.Proofs.Flow.WellFormed
import MovePlan.Run

set_option autoImplicit false

namespace MovePlan

theorem FlagValues.get?_setAll (flags : FlagValues) (names : List String) (v : Bool) (n : String) :
    (FlagValues.setAll flags names v).get? n = if n ∈ names then some v else flags.get? n := by
  rw [setAll]
  induction names generalizing flags with
  | nil => rfl
  | cons x names ih =>
    rw [List.foldl_cons, ih, OrderedMap.get?_put]
    by_cases hx : n = x <;> simp [hx]

namespace FunctionPlan

def flagsAfter (p : FunctionPlan) (flags : FlagValues) : TraceEvent → FlagValues
  | .enter _ => flags
  | .pass s => (FlagValues.setAll flags (p.clearedAt s.id) false).setAll (p.setAt s.id) true

end FunctionPlan

namespace Run
variable {p : FunctionPlan}

theorem flags_passSite (r : Run) (s : Site) :
    (r.passSite p s).flags = p.flagsAfter r.flags (.pass s) := rfl

theorem flags_passSites (r : Run) (sites : List Site) :
    (sites.foldl (Run.passSite p) r).flags = (sites.map .pass).foldl p.flagsAfter r.flags := by
  induction sites generalizing r with
  | nil => rfl
  | cons s sites ih => rw [List.foldl_cons, ih, flags_passSite, List.map_cons, List.foldl_cons]

/-- The places that are destroyed where the lifetimes of bindings end. -/
def owedPlaces (p : FunctionPlan) (r : Run) (names : List String) : List Place :=
  ((names.reverse.flatMap p.plansOf).filter fun e => r.owes e.2).map Prod.fst

/-- The places that end there without being destroyed. -/
def sparedPlaces (p : FunctionPlan) (r : Run) (names : List String) : List Place :=
  ((names.reverse.flatMap p.plansOf).filter fun e => !r.owes e.2).map Prod.fst

theorem endScope_eq (r : Run) (names : List String) :
    r.endScope p names = { r with
      destroyed := r.destroyed ++ (r.owedPlaces p names).toArray
      elided := r.elided ++ (r.sparedPlaces p names).toArray } := by
  rw [endScope, owedPlaces, sparedPlaces]
  induction names.reverse.flatMap p.plansOf generalizing r with
  | nil => simp
  | cons e es ih =>
    obtain ⟨place, d⟩ := e
    have hdestroyed : Run.owes { r with destroyed := r.destroyed.push place } = r.owes := rfl
    have helided : Run.owes { r with elided := r.elided.push place } = r.owes := rfl
    rw [List.foldl_cons, ih]
    dsimp only
    split
    next howes => simp [hdestroyed, howes]
    next howes => simp [helided, howes]

theorem flags_endScope (r : Run) (names : List String) : (r.endScope p names).flags = r.flags := by
  rw [endScope_eq]

theorem destroyed_endScope (r : Run) (names : List String) :
    (r.endScope p names).destroyed.toList = r.destroyed.toList ++ r.owedPlaces p names := by
  rw [endScope_eq, Array.toList_append]

theorem elided_endScope (r : Run) (names : List String) :
    (r.endScope p names).elided.toList = r.elided.toList ++ r.sparedPlaces p names := by
  rw [endScope_eq, Array.toList_append]

theorem destroyed_passSites (r : Run) (sites : List Site) :
    (sites.foldl (Run.passSite p) r).destroyed = r.destroyed := by
  induction sites generalizing r with
  | nil => rfl
  | cons s sites ih => rw [List.foldl_cons, ih, passSite]

theorem blocks_passSites (r : Run) (sites : List Site) :
    (sites.foldl (Run.passSite p) r).blocks = r.blocks := by
  induction sites generalizing r with
  | nil => rfl
  | cons s sites ih => rw [List.foldl_cons, ih, passSite]

theorem blocks_endScope (r : Run) (names : List String) : (r.endScope p names).blocks = r.blocks := by
  rw [endScope_eq]

end Run

theorem FunctionPlan.mem_plansOf {p : FunctionPlan} {name : String} {e : Place × DestructionPlan} :
    e ∈ p.plansOf name ↔ p.destruction.get? e.1 = some e.2 ∧ e.1.binding = name := by
  rw [FunctionPlan.plansOf, mem_sortBy, List.mem_filter, OrderedMap.get?_eq_some_iff, decide_eq_true_eq]

theorem Run.mem_owedPlaces {p : FunctionPlan} {r : Run} {names : List String} {place : Place} :
    place ∈ r.owedPlaces p names ↔
      place.binding ∈ names ∧ ∃ d, p.destruction.get? place = some d ∧ r.owes d = true := by
  simp only [owedPlaces, List.mem_map, List.mem_filter, List.mem_flatMap, List.mem_reverse]
  constructor
  · rintro ⟨⟨place, d⟩, ⟨⟨name, hname, hmem⟩, howes⟩, rfl⟩
    obtain ⟨hd, rfl⟩ := FunctionPlan.mem_plansOf.1 hmem
    exact ⟨hname, d, hd, howes⟩
  · rintro ⟨hname, d, hd, howes⟩
    exact ⟨(place, d), ⟨⟨place.binding, hname, FunctionPlan.mem_plansOf.2 ⟨hd, rfl⟩⟩, howes⟩, rfl⟩

namespace Function
variable {f : Function} {p : FunctionPlan} {order : List String}

def passBlock (f : Function) (p : FunctionPlan) (id : BlockId) (r : Run) : Run :=
  (f.sitesAt id).foldl (Run.passSite p) { r with blocks := r.blocks.push id }

/-- The run along a walk from a block, up to the end of its last block. -/
def runAlong (f : Function) (p : FunctionPlan) (order : List String) :
    BlockId → List Edge → Run → Except Fault Run
  | id, [], r => .ok (f.passBlock p id r)
  | id, e :: es, r => do
    let names ← f.endingOnEdge order id e.dst
    runAlong f p order e.dst es ((f.passBlock p id r).endScope p names)

theorem flags_passBlock (id : BlockId) (r : Run) :
    (f.passBlock p id r).flags = (f.eventsAt id).foldl p.flagsAfter r.flags := by
  rw [passBlock, Run.flags_passSites, eventsAt, List.foldl_cons]
  rfl

theorem flags_runAlong {id : BlockId} {es : List Edge} {r r' : Run}
    (h : f.runAlong p order id es r = .ok r') :
    r'.flags = (f.trace id es).foldl p.flagsAfter r.flags := by
  induction es generalizing id r with
  | nil =>
    rw [runAlong, Except.ok.injEq] at h
    rw [← h, flags_passBlock, trace_nil]
  | cons e es ih =>
    obtain ⟨names, _, h⟩ := bind_eq_ok.1 h
    rw [ih h, Run.flags_endScope, flags_passBlock, trace_cons, List.foldl_append]

theorem destroyed_passBlock (id : BlockId) (r : Run) :
    (f.passBlock p id r).destroyed = r.destroyed := by
  rw [passBlock, Run.destroyed_passSites]

theorem bindingsWhere_eq {test : Binding → Bool} {names found : List String}
    (h : f.bindingsWhere test names = .ok found) :
    found = names.filter fun n => ((f.binding? n).map test).getD false := by
  obtain ⟨tests, htests, heq⟩ := bind_eq_ok.1 h
  rw [pure_eq_ok] at heq
  subst heq
  have hall := mapM_eq_ok.1 htests
  clear h htests
  induction hall with
  | nil => rfl
  | @cons name test' names tests htest _ ih =>
    obtain ⟨b, hb, htest⟩ := bind_eq_ok.1 htest
    rw [getBinding, optionOr_eq_ok] at hb
    rw [pure_eq_ok] at htest
    subst htest
    rw [List.filter_cons, List.filter_cons, hb, Option.map_some, Option.getD_some, ← ih]
    cases test b <;> rfl

theorem mem_endingOnEdge {names : List String} {src dst : BlockId}
    (h : f.endingOnEdge order src dst = .ok names) {name : String} {b : Binding}
    (hb : f.binding? name = some b) :
    name ∈ names ↔ name ∈ order ∧ b.inRegion src = true ∧ b.inRegion dst = false := by
  rw [bindingsWhere_eq h, List.mem_filter, hb, Option.map_some, Option.getD_some, Bool.and_eq_true,
    Bool.not_eq_true']

theorem runAlong_append_cons {id c : BlockId} {es es' : List Edge} {e : Edge} {r r₁ : Run}
    (hw : f.Walk id es c) (h : f.runAlong p order id es r = .ok r₁) :
    f.runAlong p order id (es ++ e :: es') r = (f.endingOnEdge order c e.dst).bind fun names =>
      f.runAlong p order e.dst es' (r₁.endScope p names) := by
  induction es generalizing id r with
  | nil =>
    rw [walk_nil] at hw
    rw [runAlong, Except.ok.injEq] at h
    subst hw h
    rfl
  | cons e' es ih =>
    obtain ⟨names, hnames, h⟩ := bind_eq_ok.1 h
    rw [List.cons_append, runAlong, hnames]
    exact ih hw.2 h

theorem destroyed_grows {id : BlockId} {es : List Edge} {r r' : Run}
    (h : f.runAlong p order id es r = .ok r') : r.destroyed.toList <+: r'.destroyed.toList := by
  induction es generalizing id r with
  | nil =>
    rw [runAlong, Except.ok.injEq] at h
    rw [← h, destroyed_passBlock]
  | cons e es ih =>
    obtain ⟨names, _, h⟩ := bind_eq_ok.1 h
    have hrest := ih h
    rw [Run.destroyed_endScope, destroyed_passBlock] at hrest
    exact (List.prefix_append _ _).trans hrest

theorem destroyed_grows_append {id c : BlockId} {es es' : List Edge} {r r₁ r₂ : Run}
    (hw : f.Walk id es c) (h₁ : f.runAlong p order id es r = .ok r₁)
    (h₂ : f.runAlong p order id (es ++ es') r = .ok r₂) :
    r₁.destroyed.toList <+: r₂.destroyed.toList := by
  cases es' with
  | nil =>
    rw [List.append_nil, h₁, Except.ok.injEq] at h₂
    rw [h₂]
  | cons e es' =>
    rw [runAlong_append_cons hw h₁] at h₂
    obtain ⟨names, _, h₂⟩ := bind_eq_ok.1 h₂
    have hrest := destroyed_grows h₂
    rw [Run.destroyed_endScope] at hrest
    exact (List.prefix_append _ _).trans hrest

theorem exists_binding (wf : f.WellFormed) {name : String} (h : name ∈ f.lifetimeOrder) :
    ∃ b, f.binding? name = some b := by
  rcases List.mem_append.1 h with hparam | hdecl
  · obtain ⟨b, hb, _⟩ := wf.params hparam
    exact ⟨b, hb⟩
  · obtain ⟨s, hs, hn⟩ := List.mem_filterMap.1 hdecl
    exact wf.binding (List.mem_filter.1 hs).1 hn

theorem exists_bindingsWhere (wf : f.WellFormed) (test : Binding → Bool) :
    ∃ names, f.bindingsWhere test f.lifetimeOrder = .ok names := by
  have htest : ∀ name ∈ f.lifetimeOrder,
      ∃ r, (do return (name, test (← f.getBinding name)) : Except Fault (String × Bool)) = .ok r := by
    intro name hname
    obtain ⟨b, hb⟩ := exists_binding wf hname
    exact ⟨(name, test b), bind_eq_ok.2 ⟨b, optionOr_eq_ok.2 hb, rfl⟩⟩
  obtain ⟨tests, htests⟩ := exists_mapM htest
  exact ⟨_, bind_eq_ok.2 ⟨tests, htests, rfl⟩⟩

/-- Every walk can be run along. -/
theorem exists_runAlong (wf : f.WellFormed) (id : BlockId) (es : List Edge) (r : Run) :
    ∃ r', f.runAlong p f.lifetimeOrder id es r = .ok r' := by
  induction es generalizing id r with
  | nil => exact ⟨_, rfl⟩
  | cons e es ih =>
    obtain ⟨names, hnames⟩ := exists_bindingsWhere wf fun b => b.inRegion id && !b.inRegion e.dst
    obtain ⟨r', hr'⟩ := ih e.dst ((f.passBlock p id r).endScope p names)
    exact ⟨r', bind_eq_ok.2 ⟨names, hnames, hr'⟩⟩

theorem mem_of_entryAt? {α : Type} {xs : List α} {i : ℤ} {x : α} (h : entryAt? xs i = some x) :
    x ∈ xs := by
  rw [entryAt?] at h
  split at h
  · exact List.mem_of_getElem? h
  · split at h
    · exact List.mem_of_getElem? h
    · cases h

theorem liftFault_eq_ok {α : Type} {x : Except Fault α} {a : α} :
    liftFault x = .ok a ↔ x = .ok a := by
  cases x <;> simp [liftFault]

theorem mem_of_chooseEdge {choice : Choice} {id : BlockId} {edges : List Edge} {e : Edge}
    (h : chooseEdge choice id edges = .ok e) : e ∈ edges := by
  rw [chooseEdge] at h
  split at h
  · cases h
  · split at h
    · cases h
    · split at h
      · cases h
      next he =>
        rw [Except.ok.injEq] at h
        exact h ▸ mem_of_entryAt? he

theorem blocks_passBlock (id : BlockId) (r : Run) :
    (f.passBlock p id r).blocks = r.blocks.push id := by
  rw [passBlock, Run.blocks_passSites]

theorem runFrom_cases {limit : ℤ} {fuel : ℕ} {id : BlockId} {choices : Choices} {r r' : Run}
    (h : f.runFrom p order limit (fuel + 1) id choices r = .ok r') :
    f.hasBlock id = true ∧
      ((f.edgesAt id = [] ∧ ∃ names, f.endingAtReturn order id = .ok names ∧
          r' = (f.passBlock p id r).endScope p names) ∨
        ∃ e names, chooseEdge (choices.choiceAt id) id (f.edgesAt id) = .ok e ∧
          f.endingOnEdge order id e.dst = .ok names ∧
          f.runFrom p order limit fuel e.dst (choices.visit id)
            ((f.passBlock p id r).endScope p names) = .ok r') := by
  rw [runFrom] at h
  cases hb : f.block? id with
  | none =>
    rw [hb] at h
    cases h
  | some blk =>
    rw [hb] at h
    have hpass : f.passBlock p id r =
        blk.sites.foldl (Run.passSite p) { r with blocks := r.blocks.push id } := by
      rw [passBlock, sitesAt_eq hb]
    simp only [← hpass] at h
    refine ⟨hasBlock_iff.2 ⟨blk, hb⟩, ?_⟩
    rw [edgesAt_eq hb]
    split at h
    next hexit =>
      obtain ⟨names, hnames, h⟩ := bind_eq_ok.1 h
      rw [liftFault_eq_ok] at hnames
      rw [pure_eq_ok] at h
      exact .inl ⟨List.isEmpty_iff.1 hexit, names, hnames, h.symm⟩
    next =>
      obtain ⟨e, he, h⟩ := bind_eq_ok.1 h
      obtain ⟨names, hnames, h⟩ := bind_eq_ok.1 h
      rw [liftFault_eq_ok] at hnames
      exact .inr ⟨e, names, he, hnames, h⟩

end Function
end MovePlan
