import MovePlan.Proofs.Flow.Growth
import MovePlan.Proofs.Flow.Shape
import MovePlan.Proofs.Flow.Tidy

set_option autoImplicit false

namespace MovePlan

theorem opened_succ_iff {n : ℕ} {id : ℤ} : Opened (n + 1) id ↔ id = (n : ℤ) ∨ Opened n id := by
  change (0 : ℤ) ≤ id ∧ id < ((n + 1 : ℕ) : ℤ) ↔ id = (n : ℤ) ∨ (0 : ℤ) ≤ id ∧ id < (n : ℤ)
  omega

namespace Builder
variable {b : Builder}

theorem mem_scopes_putLocal (name : String) (type : TypeId) {o : OpenScope}
    (h : o ∈ (b.putLocal name type).scopes) :
    ∃ o' ∈ b.scopes, o.blocks = o'.blocks ∧ ∀ n ∈ o.locals, n ∈ o'.locals ∨ n = name := by
  rw [putLocal] at h
  cases hs : b.scopes with
  | nil => simp [hs] at h
  | cons first rest =>
    simp only [hs] at h
    rcases List.mem_cons.1 h with rfl | h
    · refine ⟨first, List.mem_cons_self, rfl, fun n hn => ?_⟩
      rwa [List.mem_append, List.mem_singleton] at hn
    · exact ⟨o, List.mem_cons_of_mem _ h, rfl, fun n hn => .inl hn⟩

/-- Closing a scope changes bindings only. -/
theorem popScope_eq (b : Builder) : ∃ bindings, b.popScope =
    { b with scopes := b.scopes.tail, function := { b.function with bindings := bindings } } := by
  obtain ⟨f, nextBlock, nextSite, current, scopes, labels, jumps⟩ := b
  cases f
  cases scopes with
  | nil => exact ⟨_, rfl⟩
  | cons o rest => exact ⟨_, rfl⟩

theorem block?_start (name : String) (captures : OrderedMap String TypeId) (x : BlockId) :
    (start name captures).function.block? x = if x = 0 then some {} else none :=
  OrderedMap.get?_put (OrderedMap.empty : OrderedMap BlockId Block) 0 x {}

theorem block?_openBlock (label : Option String) (b : Builder) (x : BlockId) :
    (b.openBlock label).2.function.block? x =
      if x = (b.nextBlock : ℤ) then some { label := label } else b.function.block? x :=
  OrderedMap.get?_put _ _ _ _

theorem block?_mapBlock (id : BlockId) (change : Block → Block) (b : Builder) (x : BlockId) :
    (b.mapBlock id change).function.block? x =
      if x = id then some (change ((b.function.block? id).getD {})) else b.function.block? x :=
  OrderedMap.get?_put _ _ _ _

theorem hasBlock_mapBlock (id : BlockId) (change : Block → Block) (b : Builder) {x : BlockId} :
    (b.mapBlock id change).function.hasBlock x = true ↔ x = id ∨ b.function.hasBlock x = true := by
  change ((b.mapBlock id change).function.block? x).isSome = true ↔ x = id ∨ (b.function.block? x).isSome = true
  rw [block?_mapBlock]
  split
  next heq => simp [heq]
  next hne => simp [hne]

theorem hasBlock_putSite (id : BlockId) (s : Site) (b : Builder) {x : BlockId} :
    (b.putSite id s).function.hasBlock x = true ↔ x = id ∨ b.function.hasBlock x = true :=
  hasBlock_mapBlock id (fun blk => { blk with sites := blk.sites ++ [b.placed id s] }) b

theorem hasBlock_openBlock (label : Option String) (b : Builder) {x : BlockId} :
    (b.openBlock label).2.function.hasBlock x = true ↔
      x = (b.nextBlock : ℤ) ∨ b.function.hasBlock x = true := by
  change ((b.openBlock label).2.function.block? x).isSome = true ↔
    x = (b.nextBlock : ℤ) ∨ (b.function.block? x).isSome = true
  rw [block?_openBlock]
  split
  next heq => simp [heq]
  next hne => simp [hne]

theorem edgesAt_openBlock (label : Option String) (b : Builder) (x : BlockId) :
    (b.openBlock label).2.function.edgesAt x =
      if x = (b.nextBlock : ℤ) then [] else b.function.edgesAt x := by
  rw [Function.edgesAt, block?_openBlock]
  split <;> rfl

theorem edgesAt_mapBlock (id : BlockId) (change : Block → Block) (b : Builder) (x : BlockId) :
    (b.mapBlock id change).function.edgesAt x =
      if x = id then (change ((b.function.block? id).getD {})).edges else b.function.edgesAt x := by
  rw [Function.edgesAt, block?_mapBlock]
  split <;> rfl

theorem edges_getD_block (f : Function) (id : BlockId) :
    ((f.block? id).getD {}).edges = f.edgesAt id := by
  rw [Function.edgesAt]
  cases f.block? id <;> rfl

theorem edgesAt_addEdge (src dst : BlockId) (kind : EdgeKind) (label : Option String) (b : Builder)
    (x : BlockId) : (b.addEdge src dst kind label).function.edgesAt x =
      if x = src then b.function.edgesAt src ++ [{ src := src, dst := dst, kind := kind, label := label }]
      else b.function.edgesAt x := by
  rw [addEdge, edgesAt_mapBlock, edges_getD_block]

theorem edgesAt_putSite (id : BlockId) (s : Site) (b : Builder) (x : BlockId) :
    (b.putSite id s).function.edgesAt x = b.function.edgesAt x := by
  have h := edgesAt_mapBlock id (fun blk => { blk with sites := blk.sites ++ [b.placed id s] }) b x
  rw [edges_getD_block] at h
  refine h.trans ?_
  split
  next heq => rw [heq]
  next => rfl

theorem labelAt_openBlock (label : Option String) (b : Builder) (x : BlockId) :
    (b.openBlock label).2.function.labelAt x =
      if x = (b.nextBlock : ℤ) then label else b.function.labelAt x := by
  rw [Function.labelAt, block?_openBlock]
  split <;> rfl

theorem labelAt_mapBlock {id : BlockId} {change : Block → Block} (h : ∀ blk, (change blk).label = blk.label)
    (b : Builder) (x : BlockId) :
    (b.mapBlock id change).function.labelAt x = b.function.labelAt x := by
  rw [Function.labelAt, block?_mapBlock, Function.labelAt]
  split
  next heq =>
    rw [Option.bind_some, h, heq]
    cases b.function.block? id <;> rfl
  next => rfl

theorem labelAt_addEdge (src dst : BlockId) (kind : EdgeKind) (label : Option String) (b : Builder)
    (x : BlockId) : (b.addEdge src dst kind label).function.labelAt x = b.function.labelAt x :=
  have h : ∀ blk : Block, ({ blk with
      edges := blk.edges ++ [{ src := src, dst := dst, kind := kind, label := label }] } : Block).label =
        blk.label := fun _ => rfl
  labelAt_mapBlock h b x

theorem labelAt_putSite (id : BlockId) (s : Site) (b : Builder) (x : BlockId) :
    (b.putSite id s).function.labelAt x = b.function.labelAt x :=
  have h : ∀ blk : Block, ({ blk with sites := blk.sites ++ [b.placed id s] } : Block).label = blk.label :=
    fun _ => rfl
  labelAt_mapBlock h b x

end Builder
end MovePlan
