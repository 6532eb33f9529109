import MovePlan.Proofs.Flow.BlockGraph

set_option autoImplicit false

namespace MovePlan
namespace Function
variable {f : Function}

/-- What holds throughout the search: of the open blocks, of what they have still to look at, and of the
finished blocks, the last one of which stands first. -/
structure Searching (f : Function) (stack : List (BlockId × List BlockId)) (seen done : List BlockId) :
    Prop where
  seen_iff : ∀ b, b ∈ seen ↔ b ∈ stack.map Prod.fst ∨ b ∈ done
  reached : ∀ b ∈ seen, f.Reached b
  chain : (stack.map Prod.fst).Pairwise fun above below => f.Leads below above
  rest : ∀ x ∈ stack, ∀ s ∈ x.2, s ∈ f.successors x.1
  looked : ∀ x ∈ stack, ∀ s ∈ f.successors x.1, f.hasBlock s = true → s ∈ seen ∨ s ∈ x.2
  finished : ∀ pre u post, done = pre ++ u :: post → ∀ v ∈ f.successors u, f.hasBlock v = true →
    v ∈ post ∨ (v ∈ seen ∧ f.Leads v u)
  first : ((stack.map Prod.fst).reverse ++ done).head? = some f.entry

namespace Searching
variable {stack : List (BlockId × List BlockId)} {seen done : List BlockId} {b s : BlockId}
  {rest : List BlockId}

theorem start (he : f.hasBlock f.entry = true) :
    f.Searching [(f.entry, f.successors f.entry)] [f.entry] [] where
  seen_iff := by simp
  reached := by simpa using ⟨he, .refl _⟩
  chain := by simp
  rest := by simp
  looked := by simpa using fun s hs _ => .inr hs
  finished := by simp
  first := rfl

theorem finish (h : f.Searching ((b, []) :: stack) seen done) : f.Searching stack seen (b :: done) where
  seen_iff x := by
    rw [h.seen_iff, List.map_cons, List.mem_cons, List.mem_cons, or_assoc, or_left_comm]
  reached := h.reached
  chain := (List.pairwise_cons.1 h.chain).2
  rest x hx := h.rest x (List.mem_cons_of_mem _ hx)
  looked x hx := h.looked x (List.mem_cons_of_mem _ hx)
  finished := by
    intro pre u post hdone v hv hblock
    rcases pre with _ | ⟨y, pre⟩
    · -- the block that is finished now: what it leads to is finished, or open below it, or itself
      rw [List.nil_append, List.cons.injEq] at hdone
      obtain ⟨rfl, rfl⟩ := hdone
      have hseen : v ∈ seen :=
        (h.looked _ List.mem_cons_self v hv hblock).resolve_right List.not_mem_nil
      rcases (h.seen_iff v).1 hseen with hopen | hdone
      · refine .inr ⟨hseen, ?_⟩
        rcases List.mem_cons.1 hopen with rfl | hbelow
        · exact .refl _
        · exact (List.pairwise_cons.1 h.chain).1 v hbelow
      · exact .inl hdone
    · rw [List.cons_append, List.cons.injEq] at hdone
      exact h.finished pre u post hdone.2 v hv hblock
  first := by
    have hfirst := h.first
    rwa [List.map_cons, List.reverse_cons, List.append_assoc, List.singleton_append] at hfirst

theorem opened (h : f.Searching ((b, s :: rest) :: stack) seen done) (hs : f.hasBlock s = true) :
    f.Searching ((s, f.successors s) :: (b, rest) :: stack) (s :: seen) done where
  seen_iff x := by simp only [List.mem_cons, h.seen_iff, List.map_cons, or_assoc]
  reached := by
    rw [List.forall_mem_cons]
    have hb : f.Reached b := h.reached b ((h.seen_iff b).2 (.inl List.mem_cons_self))
    obtain ⟨e, he, rfl⟩ := mem_successors.1 (h.rest _ List.mem_cons_self s List.mem_cons_self)
    exact ⟨⟨hs, hb.2.trans (leads_of_mem he)⟩, h.reached⟩
  chain := by
    obtain ⟨e, he, rfl⟩ := mem_successors.1 (h.rest _ List.mem_cons_self s List.mem_cons_self)
    refine List.pairwise_cons.2 ⟨?_, h.chain⟩
    change ∀ a ∈ b :: stack.map Prod.fst, f.Leads a e.dst
    rw [List.forall_mem_cons]
    exact ⟨leads_of_mem he, fun a ha => ((List.pairwise_cons.1 h.chain).1 a ha).trans (leads_of_mem he)⟩
  rest := by
    obtain ⟨hb, hstack⟩ := List.forall_mem_cons.1 h.rest
    exact List.forall_mem_cons.2 ⟨fun _ hx => hx, List.forall_mem_cons.2
      ⟨fun x hx => hb x (List.mem_cons_of_mem _ hx), hstack⟩⟩
  looked := by
    obtain ⟨hb, hstack⟩ := List.forall_mem_cons.1 h.looked
    refine List.forall_mem_cons.2 ⟨fun _ hx _ => .inr hx, List.forall_mem_cons.2 ⟨?_, ?_⟩⟩
    · intro x hx hblock
      rcases hb x hx hblock with hseen | hrest
      · exact .inl (List.mem_cons_of_mem _ hseen)
      · rcases List.mem_cons.1 hrest with rfl | hrest
        · exact .inl List.mem_cons_self
        · exact .inr hrest
    · intro y hy x hx hblock
      exact (hstack y hy x hx hblock).imp_left (List.mem_cons_of_mem _)
  finished pre u post hdone v hv hblock :=
    (h.finished pre u post hdone v hv hblock).imp_right (.imp_left (List.mem_cons_of_mem _))
  first := by
    have hfirst := h.first
    simp only [List.map_cons, List.head?_append, List.head?_reverse, List.getLast?_cons_cons] at hfirst ⊢
    exact hfirst

theorem skip (h : f.Searching ((b, s :: rest) :: stack) seen done)
    (hs : f.hasBlock s = true → s ∈ seen) : f.Searching ((b, rest) :: stack) seen done where
  seen_iff := h.seen_iff
  reached := h.reached
  chain := h.chain
  rest := by
    obtain ⟨hb, hstack⟩ := List.forall_mem_cons.1 h.rest
    exact List.forall_mem_cons.2 ⟨fun x hx => hb x (List.mem_cons_of_mem _ hx), hstack⟩
  looked := by
    obtain ⟨hb, hstack⟩ := List.forall_mem_cons.1 h.looked
    refine List.forall_mem_cons.2 ⟨fun x hx hblock => ?_, hstack⟩
    rcases hb x hx hblock with hseen | hrest
    · exact .inl hseen
    · rcases List.mem_cons.1 hrest with rfl | hrest
      · exact .inl (hs hblock)
      · exact .inr hrest
  finished := h.finished
  first := h.first

end Searching

/-- The steps that a search may still take: the open blocks are closed, what they have to look at is
looked at, and the blocks that are not seen may be opened. -/
def searchWork (f : Function) (stack : List (BlockId × List BlockId)) (seen : List BlockId) : ℕ :=
  (stack.map fun x => x.2.length + 1).sum +
    pendingWork (fun b => some (b :: f.successors b)) f.blocks.keys seen

theorem Searching.search {fuel : ℕ} {stack : List (BlockId × List BlockId)} {seen done : List BlockId}
    (h : f.Searching stack seen done) (hfuel : f.searchWork stack seen < fuel) :
    ∃ seen', f.Searching [] seen' (f.search fuel stack seen done) := by
  induction fuel generalizing stack seen done with
  | zero => omega
  | succ fuel ih =>
    rcases stack with _ | ⟨⟨b, _ | ⟨s, rest⟩⟩, stack⟩
    · exact ⟨seen, h⟩
    · refine ih h.finish ?_
      simp only [searchWork, List.map_cons, List.sum_cons, List.length_nil] at hfuel ⊢
      omega
    · simp only [Function.search]
      split
      next hs =>
        rw [Bool.and_eq_true, Bool.not_eq_true', List.contains_eq_mem, decide_eq_false_iff_not] at hs
        -- what the new block may do was pending work before
        have hwork : pendingWork (fun b => some (b :: f.successors b)) f.blocks.keys (s :: seen) +
            (s :: f.successors s).length ≤
            pendingWork (fun b => some (b :: f.successors b)) f.blocks.keys seen := by
          obtain ⟨blk, hblk⟩ := hasBlock_iff.1 hs.1
          exact pendingWork_cons _ (mem_keys_of_block? hblk) hs.2
        refine ih (h.opened hs.1) ?_
        simp only [searchWork, List.map_cons, List.sum_cons, List.length_cons] at hfuel hwork ⊢
        omega
      next hs =>
        refine ih (h.skip fun hblock => ?_) ?_
        · simpa [hblock] using hs
        · simp only [searchWork, List.map_cons, List.sum_cons, List.length_cons] at hfuel ⊢
          omega

theorem pendingWork_blocks :
    pendingWork (fun b => some (b :: f.successors b)) f.blocks.keys [] ≤ f.edgeCount + f.blocks.size := by
  have hedges : pendingWork (fun b => some (f.successors b)) f.blocks.keys [] ≤ f.edgeCount :=
    pendingWork_le_edgeCount fun id blk hb => by simp [successors, edgesAt_eq hb]
  have hself : ∀ whole, pendingWork (fun b => some (b :: f.successors b)) whole [] =
      pendingWork (fun b => some (f.successors b)) whole [] + whole.length := by
    intro whole
    induction whole with
    | nil => rfl
    | cons b whole ih =>
      simp only [pendingWork, List.map_cons, List.sum_cons, List.length_cons, List.not_mem_nil,
        ↓reduceIte, Option.getD_some] at ih ⊢
      omega
  have hsize : f.blocks.keys.length = f.blocks.size := List.length_map _
  have hall := hself f.blocks.keys
  omega

/-- The search of the function ends with all its open blocks finished. -/
theorem exists_searching (he : f.hasBlock f.entry = true) :
    ∃ seen, f.Searching [] seen f.reversePostOrder := by
  rw [reversePostOrder, if_pos he]
  refine (Searching.start he).search ?_
  obtain ⟨blk, hblk⟩ := hasBlock_iff.1 he
  have hopen := pendingWork_cons (fun b => some (b :: f.successors b)) (mem_keys_of_block? hblk)
    (List.not_mem_nil (a := f.entry))
  have hall := f.pendingWork_blocks
  simp only [searchWork, List.map_cons, List.map_nil, List.sum_cons, List.sum_nil,
    Option.getD_some, List.length_cons] at hopen ⊢
  omega

theorem mem_reversePostOrder (he : f.hasBlock f.entry = true) {b : BlockId} :
    b ∈ f.reversePostOrder ↔ f.Reached b := by
  obtain ⟨seen, h⟩ := exists_searching he
  have hseen : ∀ b, b ∈ seen ↔ b ∈ f.reversePostOrder := by simpa using h.seen_iff
  refine ⟨fun hb => h.reached b ((hseen b).2 hb), ?_⟩
  rintro ⟨hblock, es, hw⟩
  induction es using List.reverseRecOn generalizing b with
  | nil =>
    rw [← walk_nil.1 hw]
    exact List.mem_of_head? h.first
  | append_singleton es e ih =>
    obtain ⟨p, hes, hedge, rfl⟩ := walk_snoc.1 hw
    obtain ⟨pre, post, hsplit⟩ := List.append_of_mem (ih (hasBlock_of_mem_edgesAt hedge) hes)
    rcases h.finished pre p post hsplit e.dst (mem_successors.2 ⟨e, hedge, rfl⟩) hblock with hv | hv
    · rw [hsplit]
      exact List.mem_append_right _ (List.mem_cons_of_mem _ hv)
    · exact (hseen _).1 hv.1

theorem idxOf_lt_of_mem {u v : BlockId} {pre post : List BlockId} (hnodup : (pre ++ u :: post).Nodup)
    (hv : v ∈ post) : (pre ++ u :: post).idxOf u < (pre ++ u :: post).idxOf v := by
  rw [List.nodup_middle, List.nodup_cons, List.mem_append, not_or, List.nodup_append] at hnodup
  obtain ⟨⟨hupre, hupost⟩, -, -, hdisjoint⟩ := hnodup
  have hvpre : v ∉ pre := fun hmem => hdisjoint v hmem v hv rfl
  have hne : u ≠ v := fun heq => hupost (heq ▸ hv)
  rw [List.idxOf_append_of_notMem hupre, List.idxOf_append_of_notMem hvpre, List.idxOf_cons_self,
    List.idxOf_cons_ne _ hne]
  omega

/-- The blocks that the entry leads to come first, the entry at their head, and the others follow in
increasing order. An edge of the first part that does not go forward ends at a block that leads back to
its start. -/
structure ReversePostOrder (f : Function) (order : List BlockId) : Prop where
  nodup : order.Nodup
  mem_iff : ∀ b, b ∈ order ↔ f.hasBlock b = true
  first : order.head? = some f.entry
  parts : ∃ reached unreached, order = reached ++ unreached ∧ (∀ b, b ∈ reached ↔ b ∈ f.reachable) ∧
    unreached.Pairwise (· < ·)
  backward : ∀ u ∈ f.reachable, ∀ v ∈ f.reachable, v ∈ f.successors u →
    order.idxOf v ≤ order.idxOf u → f.Leads v u

/-- No reached block lies on a cycle. -/
def Acyclic (f : Function) : Prop := ∀ b ∈ f.reachable, ∀ s ∈ f.successors b, ¬ f.Leads s b

theorem ReversePostOrder.forward {order : List BlockId} (h : f.ReversePostOrder order) (ha : f.Acyclic)
    {u v : BlockId} (hu : u ∈ f.reachable) (hv : v ∈ f.reachable) (hedge : v ∈ f.successors u) :
    order.idxOf u < order.idxOf v := by
  by_contra hnot
  exact ha u hu v hedge (h.backward u hu v hv hedge (Nat.le_of_not_lt hnot))

theorem idxOf_orderedBlocks {b : BlockId} (hb : b ∈ f.reversePostOrder) :
    f.orderedBlocks.idxOf b = f.reversePostOrder.idxOf b :=
  List.idxOf_append_of_mem hb

theorem reversePostOrder_orderedBlocks (he : f.hasBlock f.entry = true) :
    f.ReversePostOrder f.orderedBlocks := by
  obtain ⟨seen, h⟩ := exists_searching he
  have hfirst : f.reversePostOrder.head? = some f.entry := h.first
  have hmem : ∀ b, b ∈ f.reversePostOrder ↔ b ∈ f.reachable := fun b => by
    rw [mem_reversePostOrder he, mem_reachable, Reached]
  refine ⟨nodup_orderedBlocks, fun b => mem_orderedBlocks, ?_, ?_, ?_⟩
  · rw [orderedBlocks, List.head?_append, hfirst]
    rfl
  · refine ⟨f.reversePostOrder, _, rfl, hmem, List.Pairwise.filter _ ?_⟩
    exact List.pairwise_map.2 pairwise_sortedBlocks
  · intro u hu v hv hedge hle
    rw [← hmem] at hu hv
    obtain ⟨pre, post, hsplit⟩ := List.append_of_mem hu
    rcases h.finished pre u post hsplit v hedge (reversePostOrder_ok.2 v hv) with hpost | hback
    · rw [idxOf_orderedBlocks hu, idxOf_orderedBlocks hv, hsplit] at hle
      have hnodup : (pre ++ u :: post).Nodup := hsplit ▸ reversePostOrder_ok.1
      exact absurd hle (Nat.not_le_of_lt (idxOf_lt_of_mem hnodup hpost))
    · exact hback.2

/-- The blocks are ordered in reverse post order, and if nothing that is reached lies on a cycle, every
edge goes forward. -/
theorem orderedBlocks_exact (he : f.hasBlock f.entry = true) :
    f.ReversePostOrder f.orderedBlocks ∧
    (f.Acyclic → ∀ u ∈ f.reachable, ∀ v ∈ f.reachable, v ∈ f.successors u →
      f.orderedBlocks.idxOf u < f.orderedBlocks.idxOf v) :=
  ⟨reversePostOrder_orderedBlocks he, fun ha _ hu _ hv hedge =>
    (reversePostOrder_orderedBlocks he).forward ha hu hv hedge⟩

/-- A loop that is entered in its middle, with an edge that leads nowhere and two blocks that nothing
leads to. -/
def tangled : Function where
  name := "tangled"
  entry := 4
  blocks := .ofList [
    (0, { edges := [{ src := 0, dst := 4 }] }),
    (2, { edges := [{ src := 2, dst := 7 }, { src := 2, dst := 2, kind := .back }] }),
    (3, {}),
    (4, { edges := [{ src := 4, dst := 7, kind := .onTrue }, { src := 4, dst := 2, kind := .onFalse }] }),
    (7, { edges := [{ src := 7, dst := 9 }, { src := 7, dst := 2, kind := .back }] })]

theorem orderedBlocks_tangled : tangled.hasBlock tangled.entry = true ∧
    tangled.ReversePostOrder [4, 7, 2, 0, 3] := by
  have horder : tangled.orderedBlocks = [4, 7, 2, 0, 3] := by decide
  exact ⟨by decide, horder ▸ (orderedBlocks_exact (f := tangled) (by decide)).1⟩

end Function
end MovePlan
