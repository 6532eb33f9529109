import MovePlan.Proofs.Flow.Fixpoint
import MovePlan.Proofs.Flow.Reachability

set_option autoImplicit false

namespace MovePlan
namespace Function
variable {f : Function}

/-- Open blocks, finished blocks and blocks seen: no block is opened twice, and every block opened is
one of the function. -/
structure SearchOk (f : Function) (stack : List (BlockId × List BlockId)) (seen done : List BlockId) :
    Prop where
  nodup : (stack.map Prod.fst ++ done).Nodup
  seen : ∀ b ∈ stack.map Prod.fst ++ done, b ∈ seen
  blocks : ∀ b ∈ stack.map Prod.fst ++ done, f.hasBlock b = true

theorem SearchOk.search {fuel : ℕ} {stack : List (BlockId × List BlockId)} {seen done : List BlockId}
    (h : f.SearchOk stack seen done) :
    (f.search fuel stack seen done).Nodup ∧ ∀ b ∈ f.search fuel stack seen done, f.hasBlock b = true := by
  have finished : ∀ {stack : List (BlockId × List BlockId)} {seen done : List BlockId},
      f.SearchOk stack seen done → done.Nodup ∧ ∀ b ∈ done, f.hasBlock b = true := fun h =>
    ⟨h.nodup.of_append_right, fun b hb => h.blocks b (List.mem_append_right _ hb)⟩
  induction fuel generalizing stack seen done with
  | zero => exact finished h
  | succ fuel ih =>
    rcases stack with _ | ⟨⟨b, _ | ⟨s, rest⟩⟩, stack⟩
    · exact finished h
    · -- the block on top is finished
      have hperm : (stack.map Prod.fst ++ b :: done).Perm (((b, []) :: stack).map Prod.fst ++ done) := by
        simp [List.perm_middle]
      exact ih ⟨hperm.nodup_iff.2 h.nodup, fun x hx => h.seen x (hperm.mem_iff.1 hx),
        fun x hx => h.blocks x (hperm.mem_iff.1 hx)⟩
    · simp only [Function.search]
      split
      next hs =>
        rw [Bool.and_eq_true, Bool.not_eq_true', List.contains_eq_mem, decide_eq_false_iff_not] at hs
        refine ih ⟨?_, ?_, ?_⟩
        · refine List.nodup_cons.2 ⟨fun hmem => hs.2 (h.seen s ?_), h.nodup⟩
          simpa using hmem
        · intro x hx
          rcases List.mem_cons.1 hx with rfl | hx
          · exact List.mem_cons_self
          · exact List.mem_cons_of_mem _ (h.seen x hx)
        · intro x hx
          rcases List.mem_cons.1 hx with rfl | hx
          · exact hs.1
          · exact h.blocks x hx
      next => exact ih ⟨h.nodup, h.seen, h.blocks⟩

theorem reversePostOrder_ok :
    f.reversePostOrder.Nodup ∧ ∀ b ∈ f.reversePostOrder, f.hasBlock b = true := by
  rw [reversePostOrder]
  split
  next he => exact SearchOk.search ⟨by simp, by simp, by simpa using he⟩
  next => simp

theorem nodup_orderedBlocks : f.orderedBlocks.Nodup := by
  refine List.Nodup.append reversePostOrder_ok.1 (nodup_sortedIds.filter _) fun b hb hb' => ?_
  simp [hb] at hb'

theorem mem_orderedBlocks {b : BlockId} : b ∈ f.orderedBlocks ↔ f.hasBlock b = true := by
  simp only [orderedBlocks, List.mem_append, List.mem_filter, mem_sortedIds, List.contains_eq_mem,
    Bool.not_eq_true', decide_eq_false_iff_not]
  by_cases hb : b ∈ f.reversePostOrder
  · simp [hb, reversePostOrder_ok.2 b hb]
  · simp [hb]

theorem length_orderedBlocks : f.orderedBlocks.length = f.blocks.size := by
  have hperm : f.orderedBlocks.Perm f.blocks.keys :=
    (List.perm_ext_iff_of_nodup nodup_orderedBlocks f.blocks.nodup).2 fun b =>
      mem_orderedBlocks.trans (f.blocks.contains_iff b)
  exact hperm.length_eq.trans (List.length_map _)

def Reached (f : Function) (b : BlockId) : Prop := f.hasBlock b = true ∧ f.Leads f.entry b

theorem hasBlock_of_walk {a b : BlockId} {es : List Edge} (hw : f.Walk a es b)
    (hb : f.hasBlock b = true) : f.hasBlock a = true := by
  cases es with
  | nil => rwa [walk_nil.1 hw]
  | cons e es => exact hasBlock_of_mem_edgesAt hw.1

theorem Reached.of_enter {a b : BlockId} {es : List Edge} (hw : f.Walk f.entry es b)
    (hb : f.hasBlock b = true) (h : .enter a ∈ f.trace f.entry es) : f.Reached a := by
  rcases enter_mem_trace.1 h with rfl | ⟨e, he, rfl⟩
  · exact ⟨hasBlock_of_walk hw hb, .refl _⟩
  · obtain ⟨es₁, es₂, rfl⟩ := List.append_of_mem he
    obtain ⟨p, h₁, h₂⟩ := walk_append.1 hw
    exact ⟨hasBlock_of_walk h₂.2 hb, es₁ ++ [e], walk_snoc.2 ⟨p, h₁, h₂.1, rfl⟩⟩

theorem reached_contains {b : BlockId} : f.graph.reached.contains b = true ↔ f.Reached b := by
  simp [graph, mem_reachable, Reached]

theorem reached_contains_eq_false {b : BlockId} :
    f.graph.reached.contains b = false ↔ ¬ f.Reached b := by
  rw [← reached_contains, Bool.not_eq_true]

@[simp] theorem graph_order : f.graph.order = f.orderedBlocks := rfl

theorem mem_predsOf {a b : BlockId} :
    a ∈ f.graph.predsOf b ↔ f.hasBlock b = true ∧ b ∈ f.successors a := by
  rw [BlockGraph.predsOf, show f.graph.preds = .fill f.orderedBlocks f.predecessors from rfl,
    ValueTable.at?_fill]
  split
  next h => rw [mem_predecessors, ← mem_orderedBlocks, and_iff_right h]
  next h => simp [← mem_orderedBlocks, h]

theorem mem_reachedPreds {a b : BlockId} :
    a ∈ f.graph.reachedPreds b ↔ (f.hasBlock b = true ∧ b ∈ f.successors a) ∧ f.Reached a := by
  rw [BlockGraph.reachedPreds, List.mem_filter, mem_predsOf, reached_contains]

end Function
end MovePlan
