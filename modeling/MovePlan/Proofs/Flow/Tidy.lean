import MovePlan.Proofs.Flow.Scripted

set_option autoImplicit false

namespace MovePlan

/-- The property holds of a function, of all functions nested in it, and so on. -/
inductive Everywhere (P : Function → Prop) : Function → Prop
  | mk {f : Function} (here : P f) (inside : ∀ g ∈ f.nested, Everywhere P g) : Everywhere P f

theorem Everywhere.here {P : Function → Prop} {f : Function} (h : Everywhere P f) : P f := by
  cases h with
  | mk here _ => exact here

theorem Everywhere.inside {P : Function → Prop} {f g : Function} (h : Everywhere P f)
    (hg : g ∈ f.nested) : Everywhere P g := by
  cases h with
  | mk _ inside => exact inside g hg

theorem Everywhere.imp {P Q : Function → Prop} {f : Function} (h : Everywhere P f)
    (himp : ∀ g, P g → Q g) : Everywhere Q f := by
  induction h with
  | mk here _ ih => exact .mk (himp _ here) ih

theorem Everywhere.and {P Q : Function → Prop} {f : Function} (h : Everywhere P f) (h' : Everywhere Q f) :
    Everywhere (fun g => P g ∧ Q g) f := by
  induction h with
  | mk here _ ih => exact .mk ⟨here, h'.here⟩ fun g hg => ih g hg (h'.inside hg)

namespace Builder
variable {b : Builder}

structure Tidy (b : Builder) : Prop where
  declared : b.function.DeclaredOnce
  sites : ∀ {id : BlockId} {s : Site}, s ∈ b.function.sitesAt id → id < (b.nextBlock : Int)
  locals : ∀ {o : OpenScope} {name : String}, o ∈ b.scopes → name ∈ o.locals →
    ∃ x, b.function.binding? name = some x ∧ x.isParam = false
  nested : ∀ g ∈ b.function.nested, Everywhere Function.DeclaredOnce g

theorem sitesAt_mapBlock (id x : BlockId) (change : Block → Block) (b : Builder) :
    (b.mapBlock id change).function.sitesAt x =
      if x = id then (change ((b.function.block? id).getD {})).sites else b.function.sitesAt x :=
  Function.sitesAt_putBlock b.function id x _

theorem sitesAt_mapBlock_same {id : BlockId} {change : Block → Block}
    (h : ∀ blk, (change blk).sites = blk.sites) (b : Builder) (x : BlockId) :
    (b.mapBlock id change).function.sitesAt x = b.function.sitesAt x := by
  rw [sitesAt_mapBlock]
  split
  next heq => rw [h, Function.sites_getD_block, heq]
  next => rfl

theorem sitesAt_addEdge (src dst : BlockId) (kind : EdgeKind) (label : Option String) (b : Builder)
    (x : BlockId) : (b.addEdge src dst kind label).function.sitesAt x = b.function.sitesAt x :=
  have h : ∀ blk : Block, ({ blk with
      edges := blk.edges ++ [{ src := src, dst := dst, kind := kind, label := label }] } : Block).sites =
        blk.sites := fun _ => rfl
  sitesAt_mapBlock_same h b x

theorem sitesAt_putSite (id : BlockId) (s : Site) (b : Builder) (x : BlockId) :
    (b.putSite id s).function.sitesAt x =
      if x = id then b.function.sitesAt id ++ [b.placed id s] else b.function.sitesAt x := by
  have h := sitesAt_mapBlock id x (fun blk => { blk with sites := blk.sites ++ [b.placed id s] }) b
  rw [Function.sites_getD_block] at h
  exact h

theorem mem_allSites_putSite {id : BlockId} {s t : Site} :
    t ∈ (b.putSite id s).function.allSites ↔ t ∈ b.function.allSites ∨ t = b.placed id s := by
  rw [Function.mem_allSites_append (sitesAt_putSite id s b), List.mem_singleton]

theorem tidy_start (name : String) (captures : OrderedMap String TypeId) :
    (start name captures).Tidy := by
  have hsites : ∀ id, (start name captures).function.sitesAt id = [] := by
    intro id
    have h := Function.sitesAt_putBlock ({ name := name } : Function) 0 id {}
    rw [show ({ name := name } : Function).sitesAt id = [] from rfl, ite_self] at h
    exact h
  refine ⟨.of_no_sites ?_ ?_ List.nodup_nil (fun hn => by simp [start] at hn), ?_, ?_, ?_⟩
  · intro s hs
    obtain ⟨id, hs⟩ := Function.mem_allSites.1 hs
    rw [hsites] at hs
    simp at hs
  · intro n x hx
    have hget : (captures.mapEntries fun name type => ({ name := name, type := type, captured := true } : Binding)).get? n =
        some x := hx
    rw [OrderedMap.get?_mapEntries, Option.map_eq_some_iff] at hget
    obtain ⟨type, htype, rfl⟩ := hget
    refine ⟨rfl, rfl, fun _ => ?_⟩
    exact (captures.contains_iff n).1 (by rw [OrderedMap.contains, htype]; rfl)
  · intro id s hs
    rw [hsites] at hs
    simp at hs
  · intro o n ho
    simp [start] at ho
  · intro g hg
    simp [start] at hg

theorem Tidy.sitesAt_openBlock (h : b.Tidy) (label : Option String) (id : BlockId) :
    (b.openBlock label).2.function.sitesAt id = b.function.sitesAt id := by
  have hput := Function.sitesAt_putBlock b.function (b.nextBlock : Int) id { label := label }
  change (b.openBlock label).2.function.sitesAt id = _ at hput
  rw [hput]
  split
  next heq =>
    -- nothing stands in a block that is not open yet
    rw [eq_comm, List.eq_nil_iff_forall_not_mem]
    intro s hs
    exact absurd (h.sites hs) (by rw [heq]; exact lt_irrefl _)
  next => rfl

theorem Tidy.openBlock (h : b.Tidy) (label : Option String) : (b.openBlock label).2.Tidy := by
  have hsites := h.sitesAt_openBlock label
  refine ⟨h.declared.congr_sites rfl rfl rfl fun _ => Function.mem_allSites_congr hsites, ?_, ?_,
    h.nested⟩
  · intro id s hs
    rw [hsites] at hs
    exact lt_trans (h.sites hs) (Int.ofNat_lt.2 (Nat.lt_succ_self _))
  · intro o name ho hname
    obtain ⟨o', ho', rfl⟩ := List.mem_map.1 ho
    exact h.locals ho' hname

theorem Tidy.congr {b' : Builder} (h : b.Tidy) (hcap : b'.function.captures = b.function.captures)
    (hparams : b'.function.params = b.function.params) (hbindings : b'.function.bindings = b.function.bindings)
    (hsites : ∀ id, b'.function.sitesAt id = b.function.sitesAt id)
    (hnested : b'.function.nested = b.function.nested) (hnext : b'.nextBlock = b.nextBlock)
    (hlocals : ∀ {o : OpenScope} {name : String}, o ∈ b'.scopes → name ∈ o.locals →
      ∃ o' ∈ b.scopes, name ∈ o'.locals) : b'.Tidy := by
  have hb : ∀ name, b'.function.binding? name = b.function.binding? name := by
    intro name
    rw [Function.binding?, Function.binding?, hbindings]
  refine ⟨h.declared.congr_sites hcap hparams hbindings fun _ => Function.mem_allSites_congr hsites, ?_,
    ?_, ?_⟩
  · intro id s hs
    rw [hsites] at hs
    rw [hnext]
    exact h.sites hs
  · intro o name ho hname
    obtain ⟨o', ho', hname'⟩ := hlocals ho hname
    rw [hb]
    exact h.locals ho' hname'
  · rw [hnested]
    exact h.nested

theorem Tidy.addEdge (h : b.Tidy) (src dst : BlockId) (kind : EdgeKind) (label : Option String) :
    (b.addEdge src dst kind label).Tidy :=
  h.congr rfl rfl rfl (sitesAt_addEdge src dst kind label b) rfl rfl fun ho hname => ⟨_, ho, hname⟩

theorem Tidy.access (h : b.Tidy) {id : BlockId} (hid : Opened b.nextBlock id) {s : Site}
    (hk : s.kind ≠ .decl) : (b.putSite id s).Tidy := by
  refine ⟨h.declared.congr_sites rfl rfl rfl ?_, ?_, h.locals, h.nested⟩
  · intro t ht
    rw [mem_allSites_putSite, or_iff_left_iff_imp]
    rintro rfl
    exact absurd ht hk
  · intro x t ht
    rw [sitesAt_putSite] at ht
    split at ht
    next heq => exact heq ▸ hid.2
    next => exact h.sites ht

theorem Tidy.declare (h : b.Tidy) {id : BlockId} (hid : Opened b.nextBlock id) {name : String}
    (type : TypeId) (hfresh : b.function.binding? name = none) :
    ((b.putLocal name type).putSite id (Build.unplaced .decl (some name))).Tidy := by
  have hb : ∀ n, ((b.putLocal name type).putSite id (Build.unplaced .decl (some name))).function.binding? n =
      if n = name then some { name := name, type := type } else b.function.binding? n :=
    fun n => OrderedMap.get?_put _ _ _ _
  have hsites : ∀ {t : Site}, t ∈ ((b.putLocal name type).putSite id
      (Build.unplaced .decl (some name))).function.allSites ↔ t ∈ b.function.allSites ∨
        t ∈ some ((b.putLocal name type).placed id (Build.unplaced .decl (some name))) := by
    intro t
    rw [mem_allSites_putSite, Option.mem_some, eq_comm (a := t)]
    rfl
  refine ⟨h.declared.put rfl hfresh rfl rfl hb (List.append_nil _).symm (fun d hd => ?_) rfl hsites,
    ?_, ?_, h.nested⟩
  · obtain rfl := Option.mem_some.1 hd
    exact ⟨rfl, rfl⟩
  · intro x t ht
    rw [sitesAt_putSite] at ht
    split at ht
    next heq => exact heq ▸ hid.2
    next => exact h.sites ht
  · have hold : ∀ {o : OpenScope} {n : String}, o ∈ b.scopes → n ∈ o.locals →
        ∃ x, ((b.putLocal name type).putSite id (Build.unplaced .decl (some name))).function.binding? n =
          some x ∧ x.isParam = false := by
      intro o n ho hn
      rw [hb]
      split
      next => exact ⟨_, rfl, rfl⟩
      next => exact h.locals ho hn
    intro o n ho hn
    change o ∈ (b.putLocal name type).scopes at ho
    rw [putLocal] at ho
    cases hs : b.scopes with
    | nil => simp [hs] at ho
    | cons s rest =>
      simp only [hs] at ho
      rcases List.mem_cons.1 ho with rfl | ho
      · rcases List.mem_append.1 hn with hn | hn
        · exact hold (by rw [hs]; exact List.mem_cons_self) hn
        · rw [hb, if_pos (List.mem_singleton.1 hn)]
          exact ⟨_, rfl, rfl⟩
      · exact hold (by rw [hs]; exact List.mem_cons_of_mem _ ho) hn

theorem Tidy.param (h : b.Tidy) {name : String} (type : TypeId) (mode : PassMode) (forwards : Bool)
    (hfresh : b.function.binding? name = none) : (b.putParam name type mode forwards).Tidy := by
  have hb : ∀ n, (b.putParam name type mode forwards).function.binding? n =
      if n = name then some { name := name, type := type, isParam := true, mode := mode } else b.function.binding? n :=
    fun n => OrderedMap.get?_put _ _ _ _
  have hsites : ∀ {t : Site}, t ∈ (b.putParam name type mode forwards).function.allSites ↔
      t ∈ b.function.allSites ∨ t ∈ (none : Option Site) := by
    intro t
    rw [or_iff_left (Option.not_mem_none t)]
    exact Function.mem_allSites_congr fun _ => rfl
  refine ⟨h.declared.put rfl hfresh rfl rfl hb rfl (fun d hd => by cases hd) rfl hsites, h.sites, ?_,
    h.nested⟩
  · intro o n ho hn
    obtain ⟨x, hx, hparam⟩ := h.locals ho hn
    rw [hb]
    split
    next heq =>
      rw [heq, hfresh] at hx
      cases hx
    next => exact ⟨x, hx, hparam⟩

theorem get?_foldl_region (blocks : List BlockId) (n : String) (names : List String)
    (bindings : OrderedMap String Binding) :
    (names.foldl (fun bindings name => match bindings.get? name with
      | some x => bindings.put name { x with region := some blocks }
      | none => bindings) bindings).get? n = (bindings.get? n).map fun x =>
        if n ∈ names then { x with region := some blocks } else x := by
  induction names generalizing bindings with
  | nil => simp
  | cons name names ih =>
    rw [List.foldl_cons, ih]
    by_cases heq : n = name
    · subst heq
      cases hx : bindings.get? n with
      | none => simp [hx]
      | some x => simp [OrderedMap.get?_put]
    · cases hx : bindings.get? name with
      | none => simp [heq]
      | some x => simp [OrderedMap.get?_put, heq]

theorem binding?_popScope {s : OpenScope} {rest : List OpenScope} (hs : b.scopes = s :: rest)
    (n : String) : b.popScope.function.binding? n = (b.function.binding? n).map fun x =>
      if n ∈ s.locals then { x with region := some s.blocks } else x := by
  rw [popScope, hs]
  exact get?_foldl_region s.blocks n s.locals b.function.bindings

theorem Tidy.popScope (h : b.Tidy) : b.popScope.Tidy := by
  cases hs : b.scopes with
  | nil =>
    rw [Builder.popScope, hs]
    exact h
  | cons s rest =>
    have hb := binding?_popScope hs
    have hsites : ∀ id, b.popScope.function.sitesAt id = b.function.sitesAt id := by
      intro id
      rw [Builder.popScope, hs]
      rfl
    refine ⟨h.declared.congr ?_ ?_ (fun _ => Function.mem_allSites_congr hsites) ?_ ?_, ?_, ?_, ?_⟩
    · rw [Builder.popScope, hs]
    · rw [Builder.popScope, hs]
    · intro n x hx
      rw [hb, Option.map_eq_some_iff] at hx
      obtain ⟨y, hy, rfl⟩ := hx
      refine ⟨y, hy, by split <;> rfl, by split <;> rfl, fun hparam => ?_⟩
      split
      next hmem =>
        obtain ⟨z, hz, hlocal⟩ := h.locals (by rw [hs]; exact List.mem_cons_self) hmem
        rw [hy, Option.some.injEq] at hz
        rw [if_pos hmem, hz, hlocal] at hparam
        cases hparam
      next => rfl
    · intro n y hy
      rw [hb, hy]
      exact ⟨_, rfl, by dsimp only; split <;> rfl⟩
    · intro id t ht
      rw [hsites] at ht
      rw [nextBlock_popScope]
      exact h.sites ht
    · intro o n ho hn
      have hrest : o ∈ rest := by
        rw [Builder.popScope, hs] at ho
        exact ho
      obtain ⟨x, hx, hparam⟩ := h.locals (by rw [hs]; exact List.mem_cons_of_mem _ hrest) hn
      rw [hb, hx]
      exact ⟨_, rfl, by dsimp only; split <;> exact hparam⟩
    · rw [Builder.popScope, hs]
      exact h.nested

theorem Tidy.finish (h : b.Tidy) : b.finish.Tidy := by
  have hdrawn : (b.drawJumps b.nextBlock b.jumps).Tidy :=
    drawJumps_induction (fun _ _ _ _ h => h.addEdge _ _ _ _) h _ _
  have hb : ∀ n, b.finish.function.binding? n =
      ((b.drawJumps b.nextBlock b.jumps).function.binding? n).map fun x =>
        if n ∈ (b.drawJumps b.nextBlock b.jumps).function.capturedNames then { x with captured := true }
        else x := fun n => OrderedMap.get?_mapEntries _ _ n
  refine ⟨hdrawn.declared.congr rfl rfl (fun _ => Function.mem_allSites_congr fun _ => rfl) ?_ ?_,
    hdrawn.sites, ?_, hdrawn.nested⟩
  · intro n x hx
    rw [hb, Option.map_eq_some_iff] at hx
    obtain ⟨y, hy, rfl⟩ := hx
    exact ⟨y, hy, by split <;> rfl, by split <;> rfl, fun _ => by split <;> rfl⟩
  · intro n y hy
    rw [hb, hy]
    exact ⟨_, rfl, by dsimp only; split <;> rfl⟩
  · intro o n ho hn
    obtain ⟨x, hx, hparam⟩ := hdrawn.locals ho hn
    rw [hb, hx]
    exact ⟨_, rfl, by dsimp only; split <;> exact hparam⟩

theorem Tidy.everywhere (h : b.Tidy) : Everywhere Function.DeclaredOnce b.function :=
  .mk h.declared h.nested

theorem Built.tidy (h : b.Built) : b.Tidy := by
  induction h with
  | start name captures => exact tidy_start name captures
  | openBlock label _ ih => exact ih.openBlock label
  | addEdge kind label _ _ _ ih => exact ih.addEdge _ _ kind label
  | moveTo _ _ ih => exact ih.congr rfl rfl rfl (fun _ => rfl) rfl rfl fun ho hn => ⟨_, ho, hn⟩
  | access h hcurrent hk ih => exact ih.access (h.opened_current hcurrent) hk
  | declare type h hcurrent hfresh ih => exact ih.declare (h.opened_current hcurrent) type hfresh
  | param type _ hfresh _ ih => exact ih.param type _ _ hfresh
  | pushScope _ _ ih =>
    refine ih.congr rfl rfl rfl (fun _ => rfl) rfl rfl fun ho hn => ?_
    rcases List.mem_cons.1 ho with rfl | ho
    · simp at hn
    · exact ⟨_, ho, hn⟩
  | popScope _ ih => exact ih.popScope
  | label _ _ _ ih => exact ih.congr rfl rfl rfl (fun _ => rfl) rfl rfl fun ho hn => ⟨_, ho, hn⟩
  | jump name _ _ ih => exact ih.congr rfl rfl rfl (fun _ => rfl) rfl rfl fun ho hn => ⟨_, ho, hn⟩
  | nested _ _ ih hinner =>
    refine ⟨ih.declared.congr_sites rfl rfl rfl fun _ => Function.mem_allSites_congr fun _ => rfl,
      ih.sites, ih.locals, ?_⟩
    intro g hg
    rcases List.mem_append.1 hg with hg | hg
    · exact ih.nested g hg
    · rw [List.mem_singleton.1 hg]
      exact hinner.finish.everywhere
  | finish _ ih => exact ih.finish

end Builder

/-- A script declares every local once, in nested functions as well. -/
theorem Script.declaredOnce (table : TypeTable) (name : String) (captures : OrderedMap String TypeId)
    (steps : List Step) :
    Everywhere Function.DeclaredOnce (run table name captures steps).function := by
  obtain ⟨b, hb, h⟩ := function_run table name captures steps
  rw [h]
  exact hb.tidy.finish.everywhere

end MovePlan
