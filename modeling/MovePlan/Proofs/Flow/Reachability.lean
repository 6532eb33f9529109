import Mathlib.Algebra.BigOperators.Group.List.Lemmas
import Mathlib.Algebra.GroupWithZero.Nat
import Mathlib.Algebra.Order.BigOperators.Group.List
import Mathlib.Algebra.Order.Group.Nat
import Mathlib.Data.List.Perm.Subperm
import Mathlib.Logic.Relation
import MovePlan.Analysis.LastUse
import MovePlan.Plan.Destruction
import MovePlan.Proofs.Flow.Walk

set_option autoImplicit false

/-!
# The searches find what walks come to

Three searches work through a stack of blocks: along the edges, along the edges that stay in a region,
and against the edges. They are one search with the blocks to go on with as a parameter. Its fuel
suffices because every block puts its successors on the stack at most once.
-/
namespace MovePlan

/-- The search through a stack, where `next` gives the blocks to go on with from a block, if the block
is one that counts. -/
def explore (next : BlockId → Option (List BlockId)) : ℕ → List BlockId → List BlockId → List BlockId
  | 0, _, seen => seen
  | _ + 1, [], seen => seen
  | fuel + 1, b :: stack, seen =>
    if b ∈ seen then explore next fuel stack seen
    else match next b with
      | none => explore next fuel stack seen
      | some bs => explore next fuel (bs ++ stack) (b :: seen)

def Goes (next : BlockId → Option (List BlockId)) (a b : BlockId) : Prop :=
  ∃ bs, next a = some bs ∧ b ∈ bs

section Explore
variable {next : BlockId → Option (List BlockId)}

/-- What the blocks of `whole` that have not been seen may still put on the stack. -/
def pendingWork (next : BlockId → Option (List BlockId)) (whole seen : List BlockId) : ℕ :=
  (whole.map fun b => if b ∈ seen then 0 else ((next b).getD []).length).sum

theorem pendingWork_cons_le (next : BlockId → Option (List BlockId)) (whole seen : List BlockId)
    (b : BlockId) :
    pendingWork next whole (b :: seen) ≤ pendingWork next whole seen := by
  refine List.sum_le_sum fun x _ => ?_
  by_cases hx : x ∈ seen
  · simp [hx]
  · by_cases hb : x = b <;> simp [hx, hb]

theorem pendingWork_cons (next : BlockId → Option (List BlockId)) {whole seen : List BlockId}
    {b : BlockId} (hu : b ∈ whole) (hb : b ∉ seen) :
    pendingWork next whole (b :: seen) + ((next b).getD []).length ≤
      pendingWork next whole seen := by
  induction whole with
  | nil => simp at hu
  | cons x xs ih =>
    rcases List.mem_cons.1 hu with rfl | hu
    · have hle := pendingWork_cons_le next xs seen b
      simp only [pendingWork, List.map_cons, List.sum_cons, List.mem_cons, true_or, ↓reduceIte, hb]
        at hle ⊢
      omega
    · have hle := ih hu
      simp only [pendingWork, List.map_cons, List.sum_cons, List.mem_cons] at hle ⊢
      by_cases hx : x ∈ seen
      · simp only [hx, or_true, ↓reduceIte]
        omega
      · by_cases hxb : x = b
        · simp only [hxb, true_or, hb, ↓reduceIte]
          omega
        · simp only [hx, hxb, or_self, ↓reduceIte]
          omega

theorem mem_of_mem_seen {fuel : ℕ} {stack seen : List BlockId} {x : BlockId} (h : x ∈ seen) :
    x ∈ explore next fuel stack seen := by
  induction fuel generalizing stack seen with
  | zero => exact h
  | succ fuel ih =>
    cases stack with
    | nil => exact h
    | cons b stack =>
      simp only [explore]
      split
      · exact ih h
      · split
        · exact ih h
        · exact ih (List.mem_cons_of_mem _ h)

theorem explore_sound {fuel : ℕ} {stack seen : List BlockId} {x : BlockId}
    (h : x ∈ explore next fuel stack seen) :
    x ∈ seen ∨ (next x).isSome ∧ ∃ b ∈ stack, Relation.ReflTransGen (Goes next) b x := by
  induction fuel generalizing stack seen with
  | zero => exact .inl h
  | succ fuel ih =>
    cases stack with
    | nil => exact .inl h
    | cons b stack =>
      simp only [explore] at h
      split at h
      · rcases ih h with hx | ⟨hx, c, hc, hr⟩
        · exact .inl hx
        · exact .inr ⟨hx, c, List.mem_cons_of_mem _ hc, hr⟩
      · split at h
        · rcases ih h with hx | ⟨hx, c, hc, hr⟩
          · exact .inl hx
          · exact .inr ⟨hx, c, List.mem_cons_of_mem _ hc, hr⟩
        next bs hbs =>
          rcases ih h with hx | ⟨hx, c, hc, hr⟩
          · rcases List.mem_cons.1 hx with rfl | hx
            · exact .inr ⟨by simp [hbs], x, List.mem_cons_self, .refl⟩
            · exact .inl hx
          · rcases List.mem_append.1 hc with hc | hc
            · exact .inr ⟨hx, b, List.mem_cons_self, .head ⟨bs, hbs, hc⟩ hr⟩
            · exact .inr ⟨hx, c, List.mem_cons_of_mem _ hc, hr⟩

/-- What the blocks seen lead to has been seen, or it waits on the stack. -/
def Awaited (next : BlockId → Option (List BlockId)) (seen stack : List BlockId) : Prop :=
  ∀ a ∈ seen, ∀ b, Goes next a b → (next b).isSome → b ∈ seen ∨ b ∈ stack

theorem Awaited.drop {c : BlockId} {seen stack : List BlockId} (h : Awaited next seen (c :: stack))
    (hc : (next c).isSome → c ∈ seen) : Awaited next seen stack := by
  intro a ha b hab hb
  rcases h a ha b hab hb with hseen | hstack
  · exact .inl hseen
  · rcases List.mem_cons.1 hstack with rfl | hstack
    · exact .inl (hc hb)
    · exact .inr hstack

theorem Awaited.visit {c : BlockId} {bs seen stack : List BlockId}
    (h : Awaited next seen (c :: stack)) (hbs : next c = some bs) :
    Awaited next (c :: seen) (bs ++ stack) := by
  intro a ha b hab hb
  rw [List.mem_cons, List.mem_append]
  rcases List.mem_cons.1 ha with rfl | ha
  · obtain ⟨bs', hbs', hmem⟩ := hab
    rw [hbs, Option.some.injEq] at hbs'
    exact .inr (.inl (hbs' ▸ hmem))
  · rcases h a ha b hab hb with hseen | hstack
    · exact .inl (.inr hseen)
    · rcases List.mem_cons.1 hstack with rfl | hstack
      · exact .inl (.inl rfl)
      · exact .inr (.inr hstack)

/-- With enough fuel the result holds the stack and is closed under steps. -/
theorem explore_closed {whole : List BlockId}
    (hsupport : ∀ b bs, next b = some bs → bs ≠ [] → b ∈ whole)
    {fuel : ℕ} {stack seen : List BlockId}
    (hfuel : stack.length + pendingWork next whole seen < fuel) (hseen : Awaited next seen stack) :
    (∀ b ∈ stack, (next b).isSome → b ∈ explore next fuel stack seen) ∧
      Awaited next (explore next fuel stack seen) [] := by
  induction fuel generalizing stack seen with
  | zero => omega
  | succ fuel ih =>
    cases stack with
    | nil => exact ⟨by simp, hseen⟩
    | cons c stack =>
      rw [List.length_cons] at hfuel
      -- a block that has been seen, or that does not count, is dropped
      have hdrop : ((next c).isSome → c ∈ seen) →
          (∀ b ∈ c :: stack, (next b).isSome → b ∈ explore next fuel stack seen) ∧
            Awaited next (explore next fuel stack seen) [] := by
        intro hc
        obtain ⟨hstack, hclosed⟩ := ih (by omega) (hseen.drop hc)
        refine ⟨fun b hb hs => ?_, hclosed⟩
        rcases List.mem_cons.1 hb with rfl | hb
        · exact mem_of_mem_seen (hc hs)
        · exact hstack b hb hs
      rw [explore]
      split
      next hc => exact hdrop fun _ => hc
      next hc =>
        split
        next hn => exact hdrop fun hs => by simp [hn] at hs
        next bs hbs =>
          -- what goes on the stack is taken out of the pending work, so the fuel still suffices
          have hwork : pendingWork next whole (c :: seen) + bs.length ≤
              pendingWork next whole seen := by
            by_cases hnil : bs = []
            · simpa [hnil] using pendingWork_cons_le next whole seen c
            · simpa [hbs] using pendingWork_cons next (hsupport c bs hbs hnil) hc
          obtain ⟨hstack, hclosed⟩ := ih (by rw [List.length_append]; omega) (hseen.visit hbs)
          refine ⟨fun b hb hs => ?_, hclosed⟩
          rcases List.mem_cons.1 hb with rfl | hb
          · exact mem_of_mem_seen List.mem_cons_self
          · exact hstack b (List.mem_append_right _ hb) hs

theorem mem_explore_iff (whole : List BlockId)
    (hsupport : ∀ b bs, next b = some bs → bs ≠ [] → b ∈ whole)
    {fuel : ℕ} {stack : List BlockId}
    (hfuel : stack.length + pendingWork next whole [] < fuel) {x : BlockId} :
    x ∈ explore next fuel stack [] ↔
      (next x).isSome ∧ ∃ b ∈ stack, Relation.ReflTransGen (Goes next) b x := by
  constructor
  · exact fun h => (explore_sound h).resolve_left (by simp)
  · rintro ⟨hx, b, hb, hr⟩
    obtain ⟨hstack, hclosed⟩ := explore_closed hsupport hfuel (fun a ha => by cases ha)
    induction hr with
    | refl => exact hstack b hb hx
    | @tail y z _ hstep ih =>
      have hy : (next y).isSome := by
        obtain ⟨bs, hbs, _⟩ := hstep
        simp [hbs]
      exact (hclosed y (ih hy) z hstep hx).resolve_right List.not_mem_nil

end Explore

namespace Function
variable {f : Function}

theorem visit_eq (f : Function) (fuel : ℕ) (stack seen : List BlockId) :
    f.visit fuel stack seen =
      explore (fun b => (f.block? b).map Block.successors) fuel stack seen := by
  induction fuel generalizing stack seen with
  | zero => rfl
  | succ fuel ih =>
    cases stack with
    | nil => rfl
    | cons b stack =>
      simp only [visit, explore, ih]
      cases f.block? b <;> rfl

theorem goes_successors (a b : BlockId) :
    Goes (fun b => (f.block? b).map Block.successors) a b ↔ b ∈ f.successors a := by
  cases h : f.block? a <;> simp [Goes, successors, edgesAt, h, Block.successors]

theorem pendingWork_le_edgeCount {next : BlockId → Option (List BlockId)}
    (hle : ∀ id blk, f.block? id = some blk → ((next id).getD []).length ≤ blk.edges.length) :
    pendingWork next f.blocks.keys [] ≤ f.edgeCount := by
  have main : ∀ es : List (BlockId × Block), (∀ e ∈ es, f.block? e.1 = some e.2) →
      pendingWork next (es.map Prod.fst) [] ≤
        (es.map Prod.snd).foldr (fun b n => b.edges.length + n) 0 := by
    intro es
    induction es with
    | nil => simp [pendingWork]
    | cons e es ih =>
      intro h
      have he := hle e.1 e.2 (h e List.mem_cons_self)
      have hrest := ih fun x hx => h x (List.mem_cons_of_mem _ hx)
      simp only [pendingWork, List.map_cons, List.sum_cons, List.foldr_cons, List.not_mem_nil,
        ↓reduceIte] at hrest ⊢
      omega
  exact main f.blocks.entries fun e he => (f.blocks.get?_eq_some_iff e.1 e.2).2 he

theorem mem_keys_of_block? {id : BlockId} {blk : Block} (h : f.block? id = some blk) :
    id ∈ f.blocks.keys :=
  List.mem_map_of_mem ((f.blocks.get?_eq_some_iff id blk).1 h)

/-- The reachable blocks are the blocks that walks come to. -/
theorem mem_reachableFrom {root b : BlockId} :
    b ∈ f.reachableFrom root ↔ f.hasBlock b = true ∧ f.Leads root b := by
  have hwork : pendingWork (fun b => (f.block? b).map Block.successors) f.blocks.keys [] ≤
      f.edgeCount :=
    pendingWork_le_edgeCount fun id blk h => by simp [h, Block.successors]
  rw [reachableFrom, visit_eq, mem_explore_iff f.blocks.keys
    (fun b bs h _ => by
      obtain ⟨blk, hb, _⟩ := Option.map_eq_some_iff.1 h
      exact mem_keys_of_block? hb)
    (by rw [List.length_singleton]; omega)]
  simp [leads_iff, hasBlock_iff, Option.isSome_iff_exists,
    show Goes (fun b => (f.block? b).map Block.successors) = fun a b => b ∈ f.successors a from
      funext fun a => funext fun b => propext (goes_successors a b)]

theorem mem_reachable {b : BlockId} :
    b ∈ f.reachable ↔ f.hasBlock b = true ∧ f.Leads f.entry b := mem_reachableFrom

theorem visitInside_eq (f : Function) (b : Binding) (fuel : ℕ) (stack seen : List BlockId) :
    f.visitInside b fuel stack seen =
      explore (fun id => (f.block? id).map fun blk => blk.successors.filter b.inRegion)
        fuel stack seen := by
  induction fuel generalizing stack seen with
  | zero => rfl
  | succ fuel ih =>
    cases stack with
    | nil => rfl
    | cons id stack =>
      simp only [visitInside, explore, ih]
      cases f.block? id <;> rfl

theorem mem_visitInside_iff {b : Binding} {fuel : ℕ} {stack : List BlockId} {c : BlockId}
    (hfuel : stack.length + f.edgeCount < fuel) :
    c ∈ f.visitInside b fuel stack [] ↔ f.hasBlock c = true ∧
      ∃ a ∈ stack, ∃ es, f.Walk a es c ∧ ∀ e ∈ es, b.inRegion e.dst = true := by
  let next : BlockId → Option (List BlockId) :=
    fun id => (f.block? id).map fun blk => blk.successors.filter b.inRegion
  have hwork : pendingWork next f.blocks.keys [] ≤ f.edgeCount :=
    pendingWork_le_edgeCount fun id blk h => by
      simpa [next, h, Block.successors] using List.length_filter_le b.inRegion (blk.edges.map Edge.dst)
  have hgoes : ∀ x y, Goes next x y ↔ ∃ e ∈ f.edgesAt x, e.dst = y ∧ b.inRegion y = true := by
    intro x y
    cases hb : f.block? x with
    | none => simp [Goes, next, edgesAt, hb]
    | some blk => simp [Goes, next, edgesAt, hb, Block.successors, and_assoc, ← exists_and_right]
  rw [visitInside_eq, mem_explore_iff f.blocks.keys
    (fun id bs h _ => by
      obtain ⟨blk, hb, _⟩ := Option.map_eq_some_iff.1 h
      exact mem_keys_of_block? hb)
    (lt_of_le_of_lt (Nat.add_le_add_left hwork _) hfuel)]
  have hblock : (next c).isSome = true ↔ f.hasBlock c = true := by
    simp [next, hasBlock_iff, Option.isSome_iff_exists]
  rw [show (((f.block? c).map fun blk => blk.successors.filter b.inRegion).isSome = true) =
    ((next c).isSome = true) from rfl, hblock]
  refine and_congr_right fun _ => exists_congr fun a => and_congr_right fun ha => ?_
  clear ha
  refine ⟨fun h => ?_, ?_⟩
  · induction h using Relation.ReflTransGen.head_induction_on with
    | refl => exact ⟨[], rfl, by simp⟩
    | head hstep _ ih =>
      obtain ⟨e, he, rfl, hin⟩ := (hgoes _ _).1 hstep
      obtain ⟨es, hw, hes⟩ := ih
      exact ⟨e :: es, ⟨he, hw⟩, List.forall_mem_cons.2 ⟨hin, hes⟩⟩
  · rintro ⟨es, hw, hin⟩
    induction es generalizing a with
    | nil => rw [walk_nil] at hw; rw [hw]
    | cons e es ih =>
      rw [List.forall_mem_cons] at hin
      exact .head ((hgoes _ _).2 ⟨e, hw.1, rfl, hin.1⟩) (ih _ hw.2 hin.2)

theorem mem_predecessors {a b : BlockId} : a ∈ f.predecessors b ↔ b ∈ f.successors a := by
  simp only [predecessors, sortInts, mem_sortBy, List.mem_map, List.mem_filter, List.any_eq_true,
    decide_eq_true_eq, Prod.exists, exists_and_right, exists_eq_right, mem_successors]
  constructor
  · rintro ⟨blk, hb, e, he, hd⟩
    have hblk := (f.blocks.get?_eq_some_iff a blk).2 hb
    exact ⟨e, by rwa [edgesAt_eq hblk], hd⟩
  · rintro ⟨e, he, hd⟩
    obtain ⟨blk, hb⟩ := hasBlock_iff.1 (hasBlock_of_mem_edgesAt he)
    exact ⟨blk, (f.blocks.get?_eq_some_iff a blk).1 hb, e, by rwa [edgesAt_eq hb] at he, hd⟩

theorem visitBack_eq (f : Function) (fuel : ℕ) (stack seen : List BlockId) :
    f.visitBack fuel stack seen = explore (fun b => some (f.predecessors b)) fuel stack seen := by
  induction fuel generalizing stack seen with
  | zero => rfl
  | succ fuel ih =>
    cases stack with
    | nil => rfl
    | cons b stack => simp only [visitBack, explore, ih]

theorem sum_map_indicator (p : BlockId → Bool) (bs : List BlockId) :
    (bs.map fun b => if p b then 1 else 0).sum = (bs.filter p).length := by
  induction bs with
  | nil => rfl
  | cons b bs ih =>
    rw [List.map_cons, List.sum_cons, ih, List.filter_cons]
    split <;> simp [Nat.add_comm]

theorem pendingWork_predecessors {whole : List BlockId} (hnodup : whole.Nodup) :
    pendingWork (fun b => some (f.predecessors b)) whole [] ≤ f.edgeCount := by
  have count : ∀ es : List (BlockId × Block),
      (whole.map fun b => (es.filter fun p => p.2.edges.any (·.dst = b)).length).sum ≤
        (es.map Prod.snd).foldr (fun b n => b.edges.length + n) 0 := by
    intro es
    induction es with
    | nil => simp
    | cons e es ih =>
      have hone : (whole.map fun b => if e.2.edges.any (·.dst = b) then 1 else 0).sum ≤
          e.2.edges.length := by
        have hlen : (whole.filter fun b => e.2.edges.any (·.dst = b)).length ≤
            (e.2.edges.map Edge.dst).length := by
          refine (List.subperm_of_subset (List.Nodup.filter _ hnodup) fun b hb => ?_).length_le
          simpa using (List.mem_filter.1 hb).2
        rw [sum_map_indicator]
        simpa using hlen
      have hsplit : (whole.map fun b =>
          ((e :: es).filter fun p => p.2.edges.any (·.dst = b)).length).sum =
          (whole.map fun b => if e.2.edges.any (·.dst = b) then 1 else 0).sum +
          (whole.map fun b => (es.filter fun p => p.2.edges.any (·.dst = b)).length).sum := by
        rw [← List.sum_map_add]
        refine congrArg List.sum (List.map_congr_left fun b _ => ?_)
        rw [List.filter_cons]
        split <;> simp [Nat.add_comm]
      rw [hsplit, List.map_cons, List.foldr_cons]
      exact Nat.add_le_add hone ih
  have hlen : ∀ b, (f.predecessors b).length =
      (f.blocks.entries.filter fun p => p.2.edges.any (·.dst = b)).length := by
    intro b
    rw [predecessors, sortInts, (sortBy_perm _ _).length_eq, List.length_map]
  have hall := count f.blocks.entries
  simpa [pendingWork, hlen, edgeCount, OrderedMap.values] using hall

/-- The blocks found against the edges are those from which a walk comes to `b`. -/
theorem mem_reaching {a b : BlockId} : a ∈ f.reaching b ↔ f.Leads a b := by
  let whole : List BlockId := (f.blocks.values.flatMap fun blk => blk.edges.map Edge.dst).dedup
  have hwork : pendingWork (fun b => some (f.predecessors b)) whole [] ≤ f.edgeCount :=
    pendingWork_predecessors (List.nodup_dedup _)
  rw [reaching, visitBack_eq, mem_explore_iff whole
    (fun x bs h hne => by
      obtain ⟨p, hp⟩ := List.exists_mem_of_ne_nil bs hne
      rw [Option.some.injEq] at h
      rw [← h, mem_predecessors, mem_successors] at hp
      obtain ⟨e, he, rfl⟩ := hp
      obtain ⟨blk, hb⟩ := hasBlock_iff.1 (hasBlock_of_mem_edgesAt he)
      rw [edgesAt_eq hb] at he
      refine List.mem_dedup.2 (List.mem_flatMap.2 ⟨blk, ?_, List.mem_map_of_mem he⟩)
      exact List.mem_map.2 ⟨(p, blk), (f.blocks.get?_eq_some_iff p blk).1 hb, rfl⟩)
    (by rw [List.length_singleton]; omega)]
  have hstep : Goes (fun b => some (f.predecessors b)) =
      Function.swap fun x y => y ∈ f.successors x := by
    funext x y
    simp [Goes, mem_predecessors, Function.swap]
  simp only [Option.isSome_some, List.mem_singleton, exists_eq_left, true_and, hstep]
  rw [Relation.reflTransGen_swap, leads_iff]

end Function
end MovePlan
