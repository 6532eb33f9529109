import MovePlan.Proofs.Flow.BlockSteps

set_option autoImplicit false

namespace MovePlan
namespace Builder
variable {b b' : Builder}

structure Laid (b : Builder) : Prop where
  entry : b.function.entry = 0
  first : 0 < b.nextBlock
  block : ∀ {id : BlockId}, b.function.hasBlock id = true ↔ Opened b.nextBlock id
  scope : ∀ {o : OpenScope} {id : BlockId}, o ∈ b.scopes → id ∈ o.blocks → Opened b.nextBlock id
  edge : ∀ {id : BlockId} {e : Edge}, e ∈ b.function.edgesAt id →
    e.src = id ∧ Opened b.nextBlock e.dst ∧ e.kind ≠ .jump
  label : ∀ {name : String} {id : BlockId},
    b.function.labelAt id = some name ↔ lastWrite name b.labels = some id
  jump : ∀ {j : BlockId × String}, j ∈ b.jumps → Opened b.nextBlock j.1

theorem laid_start (name : String) (captures : OrderedMap String TypeId) : (start name captures).Laid where
  entry := rfl
  first := Nat.one_pos
  block := by
    intro id
    rw [Function.hasBlock_iff, block?_start, start, opened_succ_iff]
    by_cases hid : id = 0
    · simp [hid]
    · have hnone : ¬ Opened 0 id := fun h => absurd (lt_of_le_of_lt h.1 h.2) (lt_irrefl _)
      simp [hid, hnone]
  scope ho := by simp [start] at ho
  edge := by
    intro id e he
    rw [Function.edgesAt, block?_start] at he
    split at he <;> simp at he
  label := by
    intro l id
    rw [Function.labelAt, block?_start]
    split <;> simp [start, lastWrite]
  jump hj := by simp [start] at hj

/-- Labels of blocks agree with the labels given out, after a new block has got a fresh one or none. -/
theorem Laid.openBlock (h : b.Laid) {label : Option String} (labels : List (String × BlockId))
    (hlabel : ∀ {name : String} {id : BlockId}, lastWrite name labels = some id ↔
      if id = (b.nextBlock : ℤ) then label = some name else lastWrite name b.labels = some id) :
    { (b.openBlock label).2 with labels := labels : Builder }.Laid where
  entry := h.entry
  first := Nat.succ_pos _
  block := by
    intro id
    change (b.openBlock label).2.function.hasBlock id = true ↔ Opened (b.nextBlock + 1) id
    rw [hasBlock_openBlock, h.block, opened_succ_iff]
  scope := by
    intro o id ho hid
    obtain ⟨o', ho', rfl⟩ := List.mem_map.1 ho
    rcases List.mem_append.1 hid with hid | hid
    · exact (h.scope ho' hid).mono (Nat.le_succ _)
    · exact List.mem_singleton.1 hid ▸ opened_new _
  edge := by
    intro id e he
    change e ∈ (b.openBlock label).2.function.edgesAt id at he
    rw [edgesAt_openBlock] at he
    split at he
    · simp at he
    · obtain ⟨hsrc, hdst, hk⟩ := h.edge he
      exact ⟨hsrc, hdst.mono (Nat.le_succ _), hk⟩
  label := by
    intro name id
    change (b.openBlock label).2.function.labelAt id = some name ↔ _
    rw [labelAt_openBlock, hlabel]
    split
    · rfl
    · exact h.label
  jump hj := (h.jump hj).mono (Nat.le_succ _)

theorem Laid.congr (h : b.Laid) (hentry : b'.function.entry = b.function.entry)
    (hnext : b'.nextBlock = b.nextBlock)
    (hblock : ∀ id, b'.function.hasBlock id = true ↔ b.function.hasBlock id = true)
    (hscope : ∀ {o : OpenScope} {id : BlockId}, o ∈ b'.scopes → id ∈ o.blocks → Opened b.nextBlock id)
    (hedge : ∀ {id : BlockId} {e : Edge}, e ∈ b'.function.edgesAt id →
      e ∈ b.function.edgesAt id ∨ e.src = id ∧ Opened b.nextBlock e.dst ∧ e.kind ≠ .jump)
    (hlabel : ∀ id, b'.function.labelAt id = b.function.labelAt id) (hlabels : b'.labels = b.labels)
    (hjump : ∀ {j : BlockId × String}, j ∈ b'.jumps → Opened b.nextBlock j.1) : b'.Laid where
  entry := hentry.trans h.entry
  first := hnext ▸ h.first
  block := by
    intro id
    rw [hblock, hnext]
    exact h.block
  scope ho hid := hnext ▸ hscope ho hid
  edge := by
    intro id e he
    rw [hnext]
    rcases hedge he with he | he
    · exact h.edge he
    · exact he
  label := by
    intro name id
    rw [hlabel, hlabels]
    exact h.label
  jump hj := hnext ▸ hjump hj

theorem Laid.opened_of_label (h : b.Laid) {name : String} {id : BlockId}
    (hid : lastWrite name b.labels = some id) : Opened b.nextBlock id := by
  obtain ⟨blk, hblk, -⟩ := Option.bind_eq_some_iff.1 (h.label.2 hid)
  exact h.block.1 (Function.hasBlock_iff.2 ⟨blk, hblk⟩)

theorem not_opened_nextBlock (b : Builder) : ¬ Opened b.nextBlock (b.nextBlock : ℤ) :=
  fun h => absurd h.2 (lt_irrefl _)

theorem Laid.addEdge (h : b.Laid) {src dst : BlockId} (hsrc : Opened b.nextBlock src)
    (hdst : Opened b.nextBlock dst) {kind : EdgeKind} (hk : kind ≠ .jump) :
    (b.addEdge src dst kind none).Laid := by
  refine h.congr rfl rfl ?_ h.scope ?_ (labelAt_addEdge src dst kind none b) rfl h.jump
  · intro id
    rw [Builder.addEdge, hasBlock_mapBlock, or_iff_right_iff_imp]
    rintro rfl
    exact h.block.2 hsrc
  · intro id e he
    rw [edgesAt_addEdge] at he
    split at he
    next heq =>
      rcases List.mem_append.1 he with he | he
      · exact .inl (heq ▸ he)
      · rw [List.mem_singleton.1 he]
        exact .inr ⟨heq.symm, hdst, hk⟩
    next => exact .inl he

theorem Laid.putSite (h : b.Laid) {id : BlockId} (hid : Opened b.nextBlock id) (s : Site) :
    (b.putSite id s).Laid := by
  refine h.congr rfl rfl ?_ h.scope ?_ (labelAt_putSite id s b) rfl h.jump
  · intro x
    rw [hasBlock_putSite, or_iff_right_iff_imp]
    rintro rfl
    exact h.block.2 hid
  · intro x e he
    rw [edgesAt_putSite] at he
    exact .inl he

theorem Laid.putLocal (h : b.Laid) (name : String) (type : TypeId) : (b.putLocal name type).Laid := by
  refine h.congr rfl rfl (fun _ => Iff.rfl) ?_ .inl (fun _ => rfl) rfl h.jump
  intro o id ho hid
  obtain ⟨o', ho', heq, -⟩ := mem_scopes_putLocal name type ho
  exact h.scope ho' (heq ▸ hid)

theorem Laid.step (h : b.Laid) (hb : b.Placed) (hp : Primitive True b b') : b'.Laid := by
  cases hp with
  | openBlock =>
    refine h.openBlock b.labels fun {name id} => ?_
    split
    next heq =>
      rw [iff_false_right (by simp), heq]
      exact fun hid => b.not_opened_nextBlock (h.opened_of_label hid)
    next => rfl
  | @label name hfresh =>
    refine h.openBlock (b.labels ++ [(name, (b.nextBlock : ℤ))]) fun {n id} => ?_
    rw [lastWrite_concat]
    by_cases hn : name = n
    · subst hn
      simp [hfresh, eq_comm]
    · rw [if_neg hn]
      split
      next heq =>
        rw [heq, Option.some.injEq, iff_false_right hn]
        exact fun hid => b.not_opened_nextBlock (h.opened_of_label hid)
      next => rfl
  | addEdge hsrc hdst hk => exact h.addEdge hsrc hdst hk
  | moveTo _ => exact h.congr rfl rfl (fun _ => Iff.rfl) h.scope .inl (fun _ => rfl) rfl h.jump
  | access hcurrent _ _ => exact h.putSite (hb _ hcurrent).opened _
  | declare type hcurrent _ => exact (h.putLocal _ type).putSite (hb _ hcurrent).opened _
  | param type _ _ =>
    exact h.congr rfl rfl (fun _ => Iff.rfl) h.scope .inl (fun _ => rfl) rfl h.jump
  | jump name hsrc =>
    refine h.congr rfl rfl (fun _ => Iff.rfl) h.scope .inl (fun _ => rfl) rfl fun hj => ?_
    rcases List.mem_append.1 hj with hj | hj
    · exact h.jump hj
    · exact List.mem_singleton.1 hj ▸ hsrc
  | nested _ =>
    exact h.congr rfl rfl (fun _ => Iff.rfl) h.scope .inl (fun _ => rfl) rfl h.jump

theorem Laid.enter (h : b.Laid) {first : BlockId} (hfirst : Opened b.nextBlock first) :
    (b.enter first).Laid := by
  refine h.congr rfl rfl (fun _ => Iff.rfl) ?_ .inl (fun _ => rfl) rfl h.jump
  intro o id ho hid
  rcases List.mem_cons.1 ho with rfl | ho
  · exact List.mem_singleton.1 hid ▸ hfirst
  · exact h.scope ho hid

theorem Laid.pop (h : b.Laid) : b.popScope.Laid := by
  obtain ⟨bindings, heq⟩ := b.popScope_eq
  rw [heq]
  exact h.congr rfl rfl (fun _ => Iff.rfl) (fun ho => h.scope (List.mem_of_mem_tail ho)) .inl
    (fun _ => rfl) rfl h.jump

structure Numbered (b : Builder) : Prop where
  position : ∀ {id : BlockId} {i : ℕ} {s : Site}, (b.function.sitesAt id)[i]? = some s →
    s.block = id ∧ s.index = i
  id_lt : ∀ {s : Site}, s ∈ b.function.allSites → s.id < b.nextSite
  id_inj : ∀ {s t : Site}, s ∈ b.function.allSites → t ∈ b.function.allSites → s.id = t.id → s = t
  complete : ∀ {s : Site}, s ∈ b.function.allSites → s.Complete True

theorem sitesAt_start (name : String) (captures : OrderedMap String TypeId) (id : BlockId) :
    (start name captures).function.sitesAt id = [] := by
  rw [Function.sitesAt, block?_start]
  split <;> rfl

theorem numbered_start (name : String) (captures : OrderedMap String TypeId) :
    (start name captures).Numbered := by
  have hnone : ∀ s, s ∉ (start name captures).function.allSites := by
    intro s hs
    obtain ⟨id, hs⟩ := Function.mem_allSites.1 hs
    simp [sitesAt_start] at hs
  refine ⟨fun hi => ?_, fun hs => absurd hs (hnone _), fun hs => absurd hs (hnone _),
    fun hs => absurd hs (hnone _)⟩
  simp [sitesAt_start] at hi

theorem Numbered.congr (h : b.Numbered) (hsites : ∀ id, b'.function.sitesAt id = b.function.sitesAt id)
    (hnext : b'.nextSite = b.nextSite) : b'.Numbered := by
  have hall : ∀ {s : Site}, s ∈ b'.function.allSites ↔ s ∈ b.function.allSites :=
    Function.mem_allSites_congr hsites
  refine ⟨fun hi => ?_, fun hs => ?_, fun hs ht => h.id_inj (hall.1 hs) (hall.1 ht),
    fun hs => h.complete (hall.1 hs)⟩
  · rw [hsites] at hi
    exact h.position hi
  · rw [hnext]
    exact h.id_lt (hall.1 hs)

/-- A new site gets the next number, at the end of its block. -/
theorem Numbered.putSite (h : b.Numbered) (id : BlockId) {s : Site} (hs : s.Complete True) :
    (b.putSite id s).Numbered where
  position := by
    intro x i t ht
    rw [sitesAt_putSite] at ht
    split at ht
    next heq =>
      rcases lt_or_ge i (b.function.sitesAt id).length with hi | hi
      · rw [List.getElem?_append_left hi] at ht
        exact heq ▸ h.position ht
      · rw [List.getElem?_append_right hi, List.getElem?_singleton] at ht
        split at ht
        next hi' =>
          rw [← Option.some.inj ht, heq]
          refine ⟨rfl, ?_⟩
          change ((b.function.sitesAt id).length : ℤ) = (i : ℤ)
          omega
        next => cases ht
    next => exact h.position ht
  id_lt := by
    intro t ht
    change t.id < ((b.nextSite + 1 : ℕ) : ℤ)
    rcases mem_allSites_putSite.1 ht with ht | rfl
    · exact lt_trans (h.id_lt ht) (Int.ofNat_lt.2 (Nat.lt_succ_self _))
    · exact Int.ofNat_lt.2 (Nat.lt_succ_self _)
  id_inj := by
    intro t u ht hu heq
    rcases mem_allSites_putSite.1 ht with ht | rfl
    · rcases mem_allSites_putSite.1 hu with hu | rfl
      · exact h.id_inj ht hu heq
      · exact absurd (h.id_lt ht) (by rw [heq]; exact lt_irrefl _)
    · rcases mem_allSites_putSite.1 hu with hu | rfl
      · exact absurd (h.id_lt hu) (by rw [← heq]; exact lt_irrefl _)
      · rfl
  complete := by
    intro t ht
    rcases mem_allSites_putSite.1 ht with ht | rfl
    · exact h.complete ht
    · exact ⟨hs.temporary, hs.target⟩

theorem complete_decl (name : String) : (Build.unplaced .decl (some name)).Complete True :=
  ⟨fun h => (by cases h), fun _ h => (by cases h)⟩

theorem Numbered.step (h : b.Numbered) (hb : b.Tidy) (hp : Primitive True b b') : b'.Numbered := by
  cases hp with
  | openBlock => exact h.congr (hb.sitesAt_openBlock none) rfl
  | @label name _ => exact h.congr (hb.sitesAt_openBlock (some name)) rfl
  | @addEdge src dst kind _ _ _ => exact h.congr (sitesAt_addEdge src dst kind none b) rfl
  | access _ _ hs => exact h.putSite _ hs
  | @declare _ name type _ _ =>
    have hl : (b.putLocal name type).Numbered := h.congr (fun _ => rfl) rfl
    exact hl.putSite _ (complete_decl name)
  | _ => exact h.congr (fun _ => rfl) rfl

theorem Numbered.pop (h : b.Numbered) : b.popScope.Numbered := by
  obtain ⟨bindings, heq⟩ := b.popScope_eq
  rw [heq]
  exact h.congr (fun _ => rfl) rfl

theorem binding?_start (name : String) (captures : OrderedMap String TypeId) (n : String) :
    (start name captures).function.binding? n =
      (captures.get? n).map fun type => { name := n, type := type, captured := true } :=
  OrderedMap.get?_mapEntries _ _ n

theorem signatureFits_start (name : String) (captures : OrderedMap String TypeId) :
    (start name captures).function.SignatureFits where
  params := by
    intro n
    simp only [binding?_start, Option.map_eq_some_iff]
    constructor
    · intro hn
      simp [start] at hn
    · rintro ⟨x, ⟨type, -, rfl⟩, hparam⟩
      cases hparam
  forwards hi := by simp [start] at hi
  captures := by
    intro n hn
    obtain ⟨type, htype⟩ := Option.isSome_iff_exists.1 ((captures.contains_iff n).2 hn)
    exact ⟨_, by rw [binding?_start, htype]; rfl, rfl, rfl⟩

theorem signatureFits_step (h : b.function.SignatureFits) (hp : Primitive True b b') : b'.function.SignatureFits := by
  cases hp with
  | @declare id name type hcurrent hfresh =>
    refine h.put hfresh (x := { name := name, type := type }) (fun n => OrderedMap.get?_put _ _ _ _) ?_ (fun _ => .inl) rfl
    exact (List.append_nil _).symm
  | @param name type mode forwards hfresh hforward =>
    refine h.put hfresh (fun n => OrderedMap.get?_put _ _ _ _) rfl ?_ rfl
    intro i hi
    change i ∈ (if forwards then b.function.forwards ++ [(b.function.params.length : ℤ)]
      else b.function.forwards) at hi
    split at hi
    next hf => exact (List.mem_append.1 hi).imp_right fun hi => ⟨List.mem_singleton.1 hi, rfl, hforward hf⟩
    next => exact .inl hi
  | _ => exact h.same rfl rfl rfl rfl

theorem signatureFits_pop (h : b.function.SignatureFits) : b.popScope.function.SignatureFits := by
  cases hs : b.scopes with
  | nil =>
    rw [popScope, hs]
    exact h
  | cons o rest =>
    obtain ⟨bindings, heq⟩ := b.popScope_eq
    have hb := binding?_popScope hs
    rw [heq] at hb ⊢
    exact h.congr rfl rfl rfl hb fun _ _ => by split <;> exact ⟨rfl, rfl, id⟩

structure Scoped (b : Builder) : Prop where
  disjoint : b.scopes.Pairwise fun o o' => o.locals.Disjoint o'.locals
  decl : ∀ {o : OpenScope} {name : String} {s : Site}, o ∈ b.scopes → name ∈ o.locals →
    s ∈ b.function.allSites → s.binding = some name → s.kind = .decl → s.block ∈ o.blocks
  region : ∀ {name : String} {x : Binding} {r : List BlockId}, b.function.binding? name = some x →
    x.region = some r → (∀ id ∈ r, Opened b.nextBlock id) ∧
      ∀ s ∈ b.function.allSites, s.binding = some name → s.kind = .decl → s.block ∈ r

theorem scoped_start (name : String) (captures : OrderedMap String TypeId) :
    (start name captures).Scoped where
  disjoint := List.Pairwise.nil
  decl ho := by simp [start] at ho
  region := by
    intro n x r hx hr
    rw [binding?_start, Option.map_eq_some_iff] at hx
    obtain ⟨type, -, rfl⟩ := hx
    cases hr

theorem Scoped.congr (h : b.Scoped) (hdisjoint : b'.scopes.Pairwise fun o o' => o.locals.Disjoint o'.locals)
    (hscopes : ∀ o' ∈ b'.scopes, o'.locals = [] ∨
      ∃ o ∈ b.scopes, o'.locals = o.locals ∧ o.blocks ⊆ o'.blocks)
    (hsites : ∀ {s : Site}, s ∈ b'.function.allSites → s.kind = .decl → s ∈ b.function.allSites)
    (hb : ∀ {name : String} {x : Binding} {r : List BlockId}, b'.function.binding? name = some x →
      x.region = some r → b.function.binding? name = some x)
    (hnext : b.nextBlock ≤ b'.nextBlock) : b'.Scoped where
  disjoint := hdisjoint
  decl := by
    intro o' name s ho' hname hs hn hk
    rcases hscopes o' ho' with hnil | ⟨o, ho, hlocals, hblocks⟩
    · rw [hnil] at hname
      cases hname
    · exact hblocks (h.decl ho (hlocals ▸ hname) (hsites hs hk) hn hk)
  region := by
    intro name x r hx hr
    obtain ⟨hopened, hdecl⟩ := h.region (hb hx hr) hr
    exact ⟨fun id hid => (hopened id hid).mono hnext, fun s hs hn hk => hdecl s (hsites hs hk) hn hk⟩

theorem Scoped.openBlock (h : b.Scoped) (ht : b.Tidy) (label : Option String) :
    (b.openBlock label).2.Scoped := by
  refine h.congr (List.pairwise_map.2 h.disjoint) ?_ ?_ (fun hx _ => hx) (Nat.le_succ _)
  · intro o' ho'
    obtain ⟨o, ho, rfl⟩ := List.mem_map.1 ho'
    exact .inr ⟨o, ho, rfl, List.subset_append_left _ _⟩
  · exact fun hs _ => (Function.mem_allSites_congr (ht.sitesAt_openBlock label)).1 hs

theorem Scoped.same (h : b.Scoped) (hscopes : b'.scopes = b.scopes) (hnext : b'.nextBlock = b.nextBlock)
    (hsites : ∀ {s : Site}, s ∈ b'.function.allSites → s.kind = .decl → s ∈ b.function.allSites)
    (hb : ∀ {name : String} {x : Binding} {r : List BlockId}, b'.function.binding? name = some x →
      x.region = some r → b.function.binding? name = some x) : b'.Scoped :=
  h.congr (hscopes ▸ h.disjoint)
    (fun o ho => .inr ⟨o, hscopes ▸ ho, rfl, List.Subset.refl _⟩) hsites hb hnext.ge

theorem Tidy.fresh_notMem (ht : b.Tidy) {name : String} (hfresh : b.function.binding? name = none)
    {o : OpenScope} (ho : o ∈ b.scopes) : name ∉ o.locals := by
  intro hn
  obtain ⟨x, hx, -⟩ := ht.locals ho hn
  rw [hfresh] at hx
  cases hx

theorem Scoped.declare (h : b.Scoped) (ht : b.Tidy) {id : BlockId} {name : String} (type : TypeId)
    (hid : ∀ o ∈ b.scopes, id ∈ o.blocks) (hfresh : b.function.binding? name = none) :
    ((b.putLocal name type).putSite id (Build.unplaced .decl (some name))).Scoped where
  disjoint := by
    change (b.putLocal name type).scopes.Pairwise _
    rw [putLocal]
    cases hs : b.scopes with
    | nil => exact List.Pairwise.nil
    | cons o rest =>
      have hpair := h.disjoint
      rw [hs, List.pairwise_cons] at hpair
      refine List.pairwise_cons.2 ⟨fun o' ho' => ?_, hpair.2⟩
      have hnot := ht.fresh_notMem hfresh (hs ▸ List.mem_cons_of_mem o ho')
      exact List.disjoint_append_left.2 ⟨hpair.1 o' ho', List.singleton_disjoint.2 hnot⟩
  decl := by
    intro o n s ho hn hs hsn hk
    obtain ⟨o', ho', hblocks, hlocals⟩ := mem_scopes_putLocal name type ho
    rw [hblocks]
    rcases mem_allSites_putSite.1 hs with hs | rfl
    · rcases hlocals n hn with hn | rfl
      · exact h.decl ho' hn hs hsn hk
      · obtain ⟨x, hx, -⟩ := ht.declared.binding_of_decl hs hsn hk
        rw [hfresh] at hx
        cases hx
    · exact hid o' ho'
  region := by
    intro n x r hx hr
    have hput := OrderedMap.get?_put b.function.bindings name n ({ name := name, type := type } : Binding)
    change ((b.putLocal name type).putSite id (Build.unplaced .decl (some name))).function.binding? n = _ at hput
    rw [hx] at hput
    split at hput
    next =>
      obtain rfl := Option.some.inj hput
      cases hr
    next hne =>
      obtain ⟨hopened, hdecl⟩ := h.region hput.symm hr
      refine ⟨hopened, fun s hs hn hk => ?_⟩
      rcases mem_allSites_putSite.1 hs with hs | rfl
      · exact hdecl s hs hn hk
      · exact absurd (Option.some.inj hn).symm hne

theorem Scoped.step (h : b.Scoped) (ht : b.Tidy) (hb : b.Placed) (hp : Primitive True b b') : b'.Scoped := by
  cases hp with
  | openBlock => exact h.openBlock ht none
  | @label name _ =>
    have ho := h.openBlock ht (some name)
    exact ho.same rfl rfl (fun hs _ => hs) fun hx _ => hx
  | @addEdge src dst kind _ _ _ =>
    refine h.same rfl rfl (fun hs _ => ?_) fun hx _ => hx
    exact (Function.mem_allSites_congr (sitesAt_addEdge src dst kind none b)).1 hs
  | access _ hk _ =>
    refine h.same rfl rfl (fun hs hdecl => ?_) fun hx _ => hx
    exact (mem_allSites_putSite.1 hs).resolve_right fun heq => hk (by rw [← hdecl, heq]; rfl)
  | declare type hcurrent hfresh => exact h.declare ht type (hb _ hcurrent).scope hfresh
  | @param name type mode forwards hfresh _ =>
    refine h.same rfl rfl (fun hs _ => hs) fun {n x r} hx hr => ?_
    have hput := OrderedMap.get?_put b.function.bindings name n
      ({ name := name, type := type, isParam := true, mode := mode } : Binding)
    change (b.putParam name type mode forwards).function.binding? n = _ at hput
    rw [hx] at hput
    split at hput
    next =>
      obtain rfl := Option.some.inj hput
      cases hr
    next => exact hput.symm
  | _ => exact h.same rfl rfl (fun hs _ => hs) fun hx _ => hx

theorem Scoped.enter (h : b.Scoped) (first : BlockId) : (b.enter first).Scoped := by
  refine h.congr ?_ ?_ (fun hs _ => hs) (fun hx _ => hx) le_rfl
  · exact List.pairwise_cons.2 ⟨fun o _ => List.disjoint_nil_left _, h.disjoint⟩
  · intro o ho
    rcases List.mem_cons.1 ho with rfl | ho
    · exact .inl rfl
    · exact .inr ⟨o, ho, rfl, List.Subset.refl _⟩

/-- The blocks of a scope that is closed become the region of its locals. -/
theorem Scoped.pop (h : b.Scoped) (hl : b.Laid) : b.popScope.Scoped := by
  cases hs : b.scopes with
  | nil =>
    rw [popScope, hs]
    exact h
  | cons o rest =>
    obtain ⟨bindings, heq⟩ := b.popScope_eq
    have hb := binding?_popScope hs
    have ho : o ∈ b.scopes := hs ▸ List.mem_cons_self
    rw [heq] at hb ⊢
    refine ⟨h.disjoint.sublist (List.tail_sublist _), fun ho' => h.decl (List.mem_of_mem_tail ho'), ?_⟩
    intro n x r hx hr
    rw [hb, Option.map_eq_some_iff] at hx
    obtain ⟨y, hy, rfl⟩ := hx
    split at hr
    next hn =>
      obtain rfl := Option.some.inj hr
      exact ⟨fun id hid => hl.scope ho hid, fun s hs' hsn hk => h.decl ho hn hs' hsn hk⟩
    next => exact h.region hy hr

structure Sound (b : Builder) : Prop where
  built : b.Built
  placed : b.Placed
  laid : b.Laid
  numbered : b.Numbered
  signature : b.function.SignatureFits
  scopes : b.Scoped

theorem sound_start (name : String) (captures : OrderedMap String TypeId) :
    (start name captures).Sound :=
  ⟨.start name captures, placed_start name captures, laid_start name captures,
    numbered_start name captures, signatureFits_start name captures, scoped_start name captures⟩

theorem Sound.step (h : b.Sound) (hp : Primitive True b b') : b'.Sound :=
  ⟨hp.built h.built, hp.placed h.placed, h.laid.step h.placed hp, h.numbered.step h.built.tidy hp,
    signatureFits_step h.signature hp, h.scopes.step h.built.tidy h.placed hp⟩

theorem Sound.grows (h : b.Sound) (hg : Grows True b b') : b'.Sound := by
  induction hg with
  | refl => exact h
  | tail _ hp ih => exact ih.step hp

theorem Sound.enter (h : b.Sound) {first : BlockId} (hfirst : b.Holds first) : (b.enter first).Sound :=
  ⟨h.built.enter hfirst.opened, placed_enter hfirst, h.laid.enter hfirst.opened,
    h.numbered.congr (fun _ => rfl) rfl, h.signature.same rfl rfl rfl rfl, h.scopes.enter first⟩

theorem Sound.pop (h : b.Sound) : b.popScope.Sound :=
  ⟨h.built.popScope, h.placed.popScope, h.laid.pop, h.numbered.pop, signatureFits_pop h.signature,
    h.scopes.pop h.laid⟩

end Builder
end MovePlan
