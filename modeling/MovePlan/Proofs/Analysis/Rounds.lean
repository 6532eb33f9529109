import MovePlan.Proofs.Analysis.Liveness
import MovePlan.Proofs.Analysis.MoveState
import MovePlan.Proofs.Analysis.Suppression
import MovePlan.Proofs.Flow.Dominator

set_option autoImplicit false

namespace MovePlan
namespace Function
variable {f : Function} {name : String} {b : Binding} {moves : List SiteId} {place : Place}

/-- A binding is live at the end of a block if it is so at the start of a successor in its region, and
at the start as the sites of the block have it. -/
structure LivenessEquation (f : Function) (name : String) (b : Binding) (live : BlockId → Liveness)
    (id : BlockId) : Prop where
  atExit : (live id).atExit = true ↔
    ∃ s ∈ f.successors id, b.inRegion s = true ∧ (live s).atEntry = true
  atEntry : (live id).atEntry = liveBeforeAll name (f.sitesAt id) (live id).atExit

def ExposureEquation (f : Function) (name : String) (exposed : BlockId → Bool) (id : BlockId) : Prop :=
  exposed id = true ↔ (∃ p, id ∈ f.successors p ∧ exposed p = true) ∨
    ∃ s ∈ f.sitesAt id, takesAddress name s = true

structure StatesEquation (f : Function) (moves : List SiteId) (place : Place) (b : Binding)
    (out : BlockId → StateSet) (id : BlockId) : Prop where
  atEntry : ∀ c, (f.statesAtEntry f.graph place b out id).has c = true ↔
    (id = f.entry ∧ f.startCondition place b = c) ∨ ∃ p, id ∈ f.successors p ∧ f.Reached p ∧
      (if b.inRegion p then out p else StateSet.onlyUninit).has c = true
  atEnd : f.Reached id → b.inRegion id = true → out id =
    (f.sitesAt id).foldl (fun states s => stateAfterSite moves place s states)
      (f.statesAtEntry f.graph place b out id)
  outside : f.Reached id → b.inRegion id = false → out id = .onlyUninit
  unreached : ¬ f.Reached id → out id = .empty

structure DominatorEquation (f : Function) (dom : BlockId → List BlockId) (id : BlockId) : Prop where
  entry : id = f.entry → dom id = [id]
  unreached : ¬ f.Reached id → dom id = [id]
  reached : f.Reached id → id ≠ f.entry → ∀ a, a ∈ dom id ↔
    a = id ∨ ∀ p, id ∈ f.successors p → f.Reached p → a ∈ dom p

theorem livenessEquation {id : BlockId} (h : f.hasBlock id = true) :
    f.LivenessEquation name b ((f.liveness f.graph name b).at? {}) id := by
  have hfixed : (f.liveness f.graph name b).at? {} id =
      f.livenessStep name b ((f.liveness f.graph name b).at? {}) id := liveness_fixed h
  refine ⟨?_, ?_⟩
  · rw [hfixed]
    simp only [livenessStep, List.any_eq_true, Bool.and_eq_true]
  · have hexit := congrArg Liveness.atExit hfixed
    rw [hexit, hfixed]
    rfl

theorem exposureEquation {id : BlockId} (h : f.hasBlock id = true) :
    f.ExposureEquation name ((f.exposure f.graph name).at? false) id := by
  rw [ExposureEquation, exposure_fixed h, exposureStep_iff]
  simp only [mem_predsOf, h, true_and]

/-- No walk comes to an unreached block, and no round brings a condition there. -/
theorem statesAtEnd_unreached {id : BlockId} (h : ¬ f.Reached id) :
    (f.statesAtEnd f.graph moves place b).at? .empty id = .empty := by
  let P : BlockId → StateSet → Prop := fun id x => ¬ f.Reached id → x = .empty
  have closed : ∀ x : BlockId → StateSet, (∀ k, P k (x k)) → ∀ k ∈ f.graph.order,
      P k (f.statesStep f.graph moves place b x k) := by
    intro x hx k _ hk
    rw [statesStep, reached_contains_eq_false.2 hk]
    exact hx k hk
  exact ValueTable.settle_induction (P := P) (fun _ _ => rfl) (fun _ hk => hk) closed _ id h

theorem statesEquation {id : BlockId} (h : f.hasBlock id = true) :
    f.StatesEquation moves place b ((f.statesAtEnd f.graph moves place b).at? .empty) id where
  atEntry c := by
    rw [has_statesAtEntry]
    simp only [mem_reachedPreds, h, true_and, and_assoc]
  atEnd hr hin := by
    conv_lhs => rw [statesAtEnd_fixed h]
    simp only [statesStep, reached_contains.2 hr, hin, Bool.not_true, Bool.false_eq_true, ↓reduceIte]
  outside hr hout := by
    rw [statesAtEnd_fixed h]
    simp only [statesStep, reached_contains.2 hr, hout, Bool.not_true, Bool.not_false,
      Bool.false_eq_true, ↓reduceIte]
  unreached := statesAtEnd_unreached

theorem dominatorEquation {id : BlockId} (h : f.hasBlock id = true) :
    f.DominatorEquation f.dominators.of id where
  entry he := by rw [dominators_fixed h, dominatorStep, if_pos he]
  unreached := of_unreached h
  reached hr hne a := by
    rw [dominators_fixed h, mem_dominatorStep hr hne]
    simp only [mem_reachedPreds, h, true_and, and_imp]
    refine and_iff_right_of_imp ?_
    rintro (rfl | hall)
    · exact h
    · -- what dominates a reached predecessor is a block, since walks come into it
      obtain ⟨p, hp⟩ := List.exists_mem_of_ne_nil _ (reachedPreds_ne_nil hr hne)
      obtain ⟨⟨_, hsucc⟩, hreached⟩ := mem_reachedPreds.1 hp
      obtain ⟨es, hw⟩ := hreached.2
      have hdom := hall p hsucc hreached
      exact (Reached.of_enter hw hreached.1 (enter_of_mem_dominators hw hreached.1 hdom)).1

/-- The rounds of every analysis stop, after a bounded number that change something, and the values
that they stop with satisfy the equations of all blocks. -/
theorem rounds_stop (f : Function) :
    (∀ name b, (∃ n ≤ 2 * f.blocks.size, ValueTable.Rounds {} (f.livenessStep name b)
        f.graph.order.reverse (.fill f.graph.order fun _ => {}) n (f.liveness f.graph name b)) ∧
      ∀ id, f.hasBlock id = true →
        f.LivenessEquation name b ((f.liveness f.graph name b).at? {}) id) ∧
    (∀ name, (∃ n ≤ f.blocks.size, ValueTable.Rounds false (f.exposureStep f.graph name)
        f.graph.order (.fill f.graph.order fun _ => false) n (f.exposure f.graph name)) ∧
      ∀ id, f.hasBlock id = true →
        f.ExposureEquation name ((f.exposure f.graph name).at? false) id) ∧
    (∀ moves place b, (∃ n ≤ 3 * f.blocks.size, ValueTable.Rounds .empty
        (f.statesStep f.graph moves place b) f.graph.order (.fill f.graph.order fun _ => .empty) n
        (f.statesAtEnd f.graph moves place b)) ∧
      ∀ id, f.hasBlock id = true →
        f.StatesEquation moves place b ((f.statesAtEnd f.graph moves place b).at? .empty) id) ∧
    (∃ n ≤ f.blocks.size * f.blocks.size, ValueTable.Rounds [] (dominatorStep f.entry f.graph)
      f.graph.order f.dominatorStart n f.dominatorTable) ∧
    ∀ id, f.hasBlock id = true → f.dominators.of id = f.dominatorTable.at? [] id ∧
      f.DominatorEquation f.dominators.of id := by
  rw [← length_orderedBlocks]
  exact ⟨fun name b => ⟨f.liveness_rounds name b, fun _ => livenessEquation⟩,
    fun name => ⟨f.exposure_rounds name, fun _ => exposureEquation⟩,
    fun moves place b => ⟨f.statesAtEnd_rounds moves place b, fun _ => statesEquation⟩,
    f.dominators_rounds, fun _ h => ⟨of_eq h, dominatorEquation h⟩⟩

end Function
end MovePlan
