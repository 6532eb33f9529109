import MovePlan.Flow.Script
import MovePlan.Proofs.Analysis.MoveState
import MovePlan.Types.Standard

set_option autoImplicit false

/-!
# Move states and replayed runs

What the analysis keeps for a place, before each site of its binding and at each end of the lifetime,
are the states that runs come there with, and no others. A run is replayed event by event from the
start of the function.
-/
namespace MovePlan

/-- The state that a condition is shown as. -/
def Condition.state : Condition → MoveState
  | .uninit => .uninit
  | .valid => .valid
  | .moved => .moved

theorem StateSet.mem_toList {states : StateSet} {state : MoveState} :
    state ∈ states.toList ↔ ∃ c : Condition, states.has c = true ∧ c.state = state := by
  simp only [toList, List.mem_append, List.mem_ite_nil_right, List.mem_singleton]
  constructor
  · rintro ((⟨h, rfl⟩ | ⟨h, rfl⟩) | ⟨h, rfl⟩)
    · exact ⟨.moved, h, rfl⟩
    · exact ⟨.uninit, h, rfl⟩
    · exact ⟨.valid, h, rfl⟩
  · rintro ⟨c, h, rfl⟩
    cases c with
    | uninit => exact .inl (.inr ⟨h, rfl⟩)
    | valid => exact .inr ⟨h, rfl⟩
    | moved => exact .inl (.inl ⟨h, rfl⟩)

namespace Function
variable {f : Function} {moves : List SiteId} {place : Place} {b : Binding}

/-- Runs come to the block inside the region, and there they return or take an edge out of it. -/
def EndsLifetime (f : Function) (b : Binding) (x : ScopeExit) : Prop :=
  (f.Reached x.block ∧ b.inRegion x.block = true) ∧
    ((f.edgesAt x.block = [] ∧ x.next = none) ∨
      ∃ e ∈ f.edgesAt x.block, b.inRegion e.dst = false ∧ x.next = some e.dst)

theorem mem_scopeExits {x : ScopeExit} : x ∈ f.scopeExits f.graph b ↔
    (f.Reached x.block ∧ b.inRegion x.block = true) ∧
      ((f.edgesAt x.block = [] ∧ x.next = none) ∨
        ∃ e ∈ f.edgesAt x.block, b.inRegion e.dst = false ∧ x.next = some e.dst) := by
  simp only [scopeExits, List.mem_flatMap, List.mem_filter, Prod.exists, mem_sortedBlocks,
    Bool.and_eq_true, reached_contains]
  constructor
  · rintro ⟨id, blk, ⟨hb, hr, hin⟩, hx⟩
    rw [Block.isExit] at hx
    split at hx
    next hempty =>
      rw [List.mem_singleton] at hx
      subst hx
      exact ⟨⟨hr, hin⟩, .inl ⟨by rw [edgesAt_eq hb]; exact List.isEmpty_iff.1 hempty, rfl⟩⟩
    next =>
      obtain ⟨e, he, rfl⟩ := List.mem_map.1 hx
      rw [List.mem_filter] at he
      exact ⟨⟨hr, hin⟩, .inr ⟨e, by rw [edgesAt_eq hb]; exact he.1, by simpa using he.2, rfl⟩⟩
  · rintro ⟨⟨hr, hin⟩, hx⟩
    obtain ⟨blk, hb⟩ := hasBlock_iff.1 hr.1
    refine ⟨x.block, blk, ⟨hb, hr, hin⟩, ?_⟩
    rw [edgesAt_eq hb] at hx
    rcases hx with ⟨hempty, hnext⟩ | ⟨e, he, hout, hnext⟩
    · rw [Block.isExit, hempty]
      simp [← hnext]
    · have hne : blk.edges.isEmpty = false := by
        rw [List.isEmpty_eq_false_iff]
        exact List.ne_nil_of_mem he
      rw [Block.isExit, hne]
      refine List.mem_map.2 ⟨e, List.mem_filter.2 ⟨he, by simp [hout]⟩, ?_⟩
      rw [← hnext]

theorem get?_exits {r : PlaceStates} (hb : f.binding? place.binding = some b)
    (h : f.placeStatesIn f.graph moves place = .ok r) {x : ScopeExit} {states : StateSet} :
    r.exits.get? x = some states ↔ x ∈ f.scopeExits f.graph b ∧
      states = (f.statesAtEnd f.graph moves place b).at? .empty x.block := by
  obtain ⟨b', hb', h⟩ := bind_eq_ok.1 h
  rw [getBinding, optionOr_eq_ok, hb, Option.some.injEq] at hb'
  subst hb'
  rw [pure_eq_ok] at h
  rw [← h, OrderedMap.get?_ofList]
  constructor
  · intro hw
    obtain ⟨y, hy, heq⟩ := List.mem_map.1 (mem_of_lastWrite hw)
    rw [Prod.mk.injEq] at heq
    obtain ⟨rfl, rfl⟩ := heq
    exact ⟨hy, rfl⟩
  · rintro ⟨hx, rfl⟩
    refine lastWrite_eq_some (List.mem_map_of_mem hx) fun w hw => ?_
    obtain ⟨y, _, heq⟩ := List.mem_map.1 hw
    rw [Prod.mk.injEq] at heq
    rw [← heq.2, heq.1]

def ComesBefore (f : Function) (moves : List SiteId) (place : Place) (b : Binding) (s : Site)
    (state : MoveState) : Prop :=
  ∃ es c before after, f.Walk f.entry es c ∧ f.trace f.entry es = before ++ .pass s :: after ∧
    (f.conditionOn moves place b before).state = state

def ComesToEnd (f : Function) (moves : List SiteId) (place : Place) (b : Binding) (id : BlockId)
    (state : MoveState) : Prop :=
  ∃ es, f.Walk f.entry es id ∧ (f.conditionOn moves place b (f.trace f.entry es)).state = state

/-- The states before the sites of a binding, and those at the ends of its lifetime, are the states that
runs leave the place in, whatever sites are taken to move. -/
theorem placeStates_exact {model : Option TypeModel} {ds : List Diagnostic}
    (hvalid : f.validate model = .ok ds) (hds : hasErrors ds = false) (moves : List SiteId) (place : Place)
    (hb : f.binding? place.binding = some b) :
    ∃ r, f.placeStates moves place = .ok r ∧
      (∀ s ∈ f.allSites, s.binding = some place.binding →
        ((∃ states, lastWrite s.id r.before = some states) ↔
          f.Reached s.block ∧ b.inRegion s.block = true) ∧
        ∀ states, lastWrite s.id r.before = some states →
          ∀ state, state ∈ states.toList ↔ f.ComesBefore moves place b s state) ∧
      ∀ x, ((∃ states, r.exits.get? x = some states) ↔ f.EndsLifetime b x) ∧
        ∀ states, r.exits.get? x = some states →
          ∀ state, state ∈ states.toList ↔ f.ComesToEnd moves place b x.block state := by
  have wf : f.WellFormed := wellFormed_of_validate hvalid hds
  obtain ⟨r, hr⟩ : ∃ r, f.placeStates moves place = .ok r :=
    ⟨_, bind_eq_ok.2 ⟨b, optionOr_eq_ok.2 hb, rfl⟩⟩
  refine ⟨r, hr, fun s hs hn => ⟨⟨?_, ?_⟩, fun states hstates state => ?_⟩, fun x => ⟨⟨?_, ?_⟩, ?_⟩⟩
  · rintro ⟨states, hstates⟩
    exact reached_of_before wf hb hr hs hstates
  · rintro ⟨hreached, hin⟩
    obtain ⟨pre, post, hsplit⟩ := List.append_of_mem (wf.mem_sitesAt hs)
    exact ⟨_, lastWrite_before wf hb hr hsplit hn hreached hin⟩
  · have hin := (reached_of_before wf hb hr hs hstates).2
    have hset : r.setBefore s.id = states := by rw [PlaceStates.setBefore, hstates, Option.getD_some]
    rw [StateSet.mem_toList, ← hset]
    constructor
    · rintro ⟨c, hc, rfl⟩
      obtain ⟨es, d, before, after, hw, ht, rfl⟩ := (has_setBefore wf hb hr hs hn hin).1 hc
      exact ⟨es, d, before, after, hw, ht, rfl⟩
    · rintro ⟨es, d, before, after, hw, ht, rfl⟩
      exact ⟨_, (has_setBefore wf hb hr hs hn hin).2 ⟨es, d, before, after, hw, ht, rfl⟩, rfl⟩
  · rintro ⟨states, hstates⟩
    exact mem_scopeExits.1 ((get?_exits hb hr).1 hstates).1
  · intro hends
    exact ⟨_, (get?_exits hb hr).2 ⟨mem_scopeExits.2 hends, rfl⟩⟩
  · intro states hstates state
    obtain ⟨hx, rfl⟩ := (get?_exits hb hr).1 hstates
    have hends : ∀ {c}, _ ↔ f.Leaves moves place b x.block c := has_statesAtEnd wf (mem_scopeExits.1 hx).1.1
    rw [StateSet.mem_toList]
    constructor
    · rintro ⟨c, hc, rfl⟩
      obtain ⟨es, hw, rfl⟩ := hends.1 hc
      exact ⟨es, hw, rfl⟩
    · rintro ⟨es, hw, rfl⟩
      exact ⟨_, hends.2 ⟨es, hw, rfl⟩, rfl⟩

def movedInLap : Function :=
  (Script.run .standard "f" .empty [
    .loop [] [
      .breakLoopIf 0,
      .declare "t" (.named "Str"),
      .branchThen [
        .moveOut (.place "t") (some (.argument "g" 0 .value false false)) true false],
      .access .read "t"]]).function

def movedInLapLocal : Binding := { name := "t", type := 2, region := some [2, 4, 5, 6, 7] }

def readInLap : Site := { Build.unplaced .read (some "t") with id := 2, block := 7 }

/-- Runs bring the local to the read alive and moved, and only the lap that ends early ends the lifetime
without a declaration. -/
theorem placeStates_movedInLap :
    movedInLap.validate none = .ok [] ∧ movedInLap.binding? "t" = some movedInLapLocal ∧
      (∀ state, movedInLap.ComesBefore [1] { binding := "t" } movedInLapLocal readInLap state ↔
        state = .moved ∨ state = .valid) ∧
      ∀ state, movedInLap.ComesToEnd [1] { binding := "t" } movedInLapLocal 2 state ↔ state = .uninit := by
  have hvalid : movedInLap.validate none = .ok [] := by decide +kernel
  have hb : movedInLap.binding? "t" = some movedInLapLocal := by decide +kernel
  obtain ⟨r, hr, hsites, hexits⟩ := placeStates_exact hvalid rfl [1] { binding := "t" } hb
  have hbefore : (movedInLap.placeStates [1] { binding := "t" }).toOption.bind
      (fun r => lastWrite 2 r.before) = some { moved := true, valid := true } := by decide +kernel
  have hexit : (movedInLap.placeStates [1] { binding := "t" }).toOption.bind
      (fun r => r.exits.get? { block := 2, next := some 3 }) = some { uninit := true } := by decide +kernel
  rw [hr] at hbefore hexit
  refine ⟨hvalid, hb, fun state => ?_, fun state => ?_⟩
  · rw [← (hsites readInLap (by decide +kernel) rfl).2 _ hbefore]
    simp [StateSet.toList]
  · rw [← (hexits _).2 _ hexit]
    simp [StateSet.toList]

end Function
end MovePlan
