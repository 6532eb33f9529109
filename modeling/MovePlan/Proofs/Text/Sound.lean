import MovePlan.Proofs.Text.Blocks

set_option autoImplicit false

namespace MovePlan
namespace Text

theorem buildScopes_quiet {ds : List ScopeDecl} {f g : Function} {t : TypeTable} {b b' : Assembly}
    (h : buildScopes ds f b = .ok (g, b')) (hq : b'.Quiet) (hf : f.BoundIn t) :
    g.BoundIn t ∧ ∃ bindings, g = { f with bindings := bindings } := by
  induction ds generalizing f b with
  | nil =>
    obtain ⟨rfl, rfl⟩ := run_pure.1 h
    exact ⟨hf, f.bindings, by cases f; rfl⟩
  | cons d rest ih =>
    rw [buildScopes] at h
    cases hb : f.binding? d.name.text with
    | none =>
      simp only [hb] at h
      exact absurd hq (not_quiet_of_report h fun _ => builds_buildScopes _ _)
    | some x =>
      simp only [hb] at h
      split at h
      next => exact absurd hq (not_quiet_of_report h fun _ => builds_buildScopes _ _)
      next =>
        obtain ⟨region, b₁, -, h⟩ := run_bind.1 h
        have hput : ∀ name, (f.bindings.put d.name.text { x with region := some region }).get? name =
            (f.binding? name).map fun y => if name = d.name.text then { y with region := some region } else y := by
          intro name
          rw [OrderedMap.get?_put]
          split
          next heq => rw [heq, hb]; rfl
          next => exact Option.map_id'.symm
        have hf₁ : Function.BoundIn
            { f with bindings := f.bindings.put d.name.text { x with region := some region } } t :=
          hf.congr rfl rfl rfl hput (fun _ _ => by split <;> exact ⟨rfl, rfl, id⟩)
            fun _ _ => by split <;> rfl
        obtain ⟨hg, bindings, rfl⟩ := ih h hf₁
        exact ⟨hg, bindings, rfl⟩

theorem le_foldl_max {xs : List ℤ} {low x : ℤ} (h : x ≤ low ∨ x ∈ xs) : x ≤ xs.foldl max low := by
  induction xs generalizing low with
  | nil => simpa using h
  | cons y xs ih =>
    rw [List.foldl_cons]
    refine ih ?_
    rw [List.mem_cons] at h
    rcases h with h | rfl | h
    · exact .inl (h.trans (le_max_left _ _))
    · exact .inl (le_max_right _ _)
    · exact .inr h

theorem lt_lastBlock_succ {f : Function} {id : BlockId} (h : f.hasBlock id = true) : id < lastBlock f + 1 := by
  have hle : (id : ℤ) ≤ lastBlock f := le_foldl_max (.inr ((OrderedMap.contains_iff _ _).1 h))
  exact Int.lt_add_one_of_le hle

/-- A function whose blocks are those that are declared. -/
structure Assembled (t : TypeTable) (ds : List BlockDecl) (f : Function) : Prop where
  boundIn : f.BoundIn t
  blocks : ∃ labels dangling, Labelled f labels ∧ (∀ {id : BlockId}, f.hasBlock id = true → id < dangling) ∧
    Filled t labels dangling 0 ds f.blocks.entries

namespace Assembled
variable {t t' : TypeTable} {ds : List BlockDecl} {f : Function}

theorem allSites_perm (f : Function) : f.allSites.Perm (f.blocks.entries.flatMap (·.2.sites)) :=
  (sortBy_perm _ _).flatMap_right _

theorem ids (h : Assembled t ds f) : (f.blocks.entries.flatMap (·.2.sites)).map Site.id =
    (List.range f.allSites.length).map fun (n : ℕ) => (n : ℤ) := by
  obtain ⟨labels, dangling, -, -, hfilled⟩ := h.blocks
  rw [hfilled.ids, ← (allSites_perm f).length_eq, List.range_eq_range']

theorem standsAt (h : Assembled t ds f) {id : BlockId} {i : ℕ} {s : Site} (hs : (f.sitesAt id)[i]? = some s) :
    ∃ n, StandsAt t n id i s := by
  obtain ⟨labels, dangling, -, -, hfilled⟩ := h.blocks
  obtain ⟨blk, hblk⟩ := Function.hasBlock_iff.1 (Function.hasBlock_of_mem_sitesAt (List.mem_of_getElem? hs))
  rw [Function.sitesAt_eq hblk] at hs
  exact hfilled.sites ((OrderedMap.get?_eq_some_iff _ _ _).1 hblk) hs

theorem standsAt_of_mem (h : Assembled t ds f) {s : Site} (hs : s ∈ f.allSites) :
    ∃ n id i, StandsAt t n id i s := by
  obtain ⟨id, hs⟩ := Function.mem_allSites.1 hs
  obtain ⟨i, hi⟩ := List.mem_iff_getElem?.1 hs
  obtain ⟨n, hn⟩ := h.standsAt hi
  exact ⟨n, id, i, hn⟩

theorem edge (h : Assembled t ds f) {id : BlockId} {e : Edge} (he : e ∈ f.edgesAt id) :
    e.src = id ∧ (e.kind = .jump → f.LeadsToLabel e) := by
  obtain ⟨labels, dangling, hlabels, hblocks, hfilled⟩ := h.blocks
  obtain ⟨blk, hblk, he⟩ := Function.mem_edgesAt_iff.1 he
  obtain ⟨hsrc, hto⟩ := hfilled.edges ((OrderedMap.get?_eq_some_iff _ _ _).1 hblk) he
  exact ⟨hsrc, fun hk => Function.leadsToLabel hlabels hblocks (hto hk)⟩

theorem shaped (h : Assembled t ds f) : f.Shaped where
  source he := (h.edge he).1
  jump he hk := (h.edge he).2 hk
  position hs := by
    obtain ⟨n, hn⟩ := h.standsAt hs
    exact ⟨hn.block, hn.index⟩
  ids := by
    refine ((allSites_perm f).map Site.id).nodup_iff.2 ?_
    rw [h.ids]
    exact List.nodup_range.map fun _ _ heq => Int.ofNat.inj heq
  temporary hs := by
    obtain ⟨n, id, i, hn⟩ := h.standsAt_of_mem hs
    exact hn.complete.temporary
  target hs := by
    obtain ⟨n, id, i, hn⟩ := h.standsAt_of_mem hs
    exact hn.complete.target trivial
  params hn := h.boundIn.signature.params.1 hn
  forwards hi := h.boundIn.signature.forwards hi

end Assembled

theorem Filled.mono {t t' : TypeTable} {labels : List (String × BlockId)} {dangling : BlockId} {first : ℕ}
    {ds : List BlockDecl} {filled : List (BlockId × Block)} (h : Filled t labels dangling first ds filled)
    (ht : t.Extends t') : Filled t' labels dangling first ds filled where
  read := h.read
  ids := h.ids
  edges := h.edges
  sites hx hs := by
    obtain ⟨n, hn⟩ := h.sites hx hs
    exact ⟨n, hn.mono ht⟩

theorem Assembled.mono {t t' : TypeTable} {ds : List BlockDecl} {f : Function} (h : Assembled t ds f)
    (ht : t.Extends t') : Assembled t' ds f := by
  obtain ⟨labels, dangling, hlabels, hblocks, hfilled⟩ := h.blocks
  exact ⟨h.boundIn.mono ht, labels, dangling, hlabels, hblocks, hfilled.mono ht⟩

theorem assembled_of_fillBlocks {ds : List BlockDecl} {kept : List (BlockId × List Statement)}
    {new : List (BlockId × Block)} (ho : Opens ds kept new) {f : Function} {labels : List (String × BlockId)}
    {body : Body} {b b' : Assembly}
    (h : fillBlocks kept { function := f, labels := labels, nextSite := 0, nextDangling := lastBlock f + 1 } b =
      .ok (body, b')) (hq : b'.Quiet) (hf : f.BoundIn b.table) (hlabels : Labelled f labels)
    (hentries : f.blocks.entries = new) :
    Assembled b'.table ds body.function ∧
      ∃ bindings blocks, body.function = { f with bindings := bindings, blocks := blocks } := by
  have hext := builds_fillBlocks _ _ _ _ _ h
  have hstart : f.blocks.entries = [] ++ new := hentries
  obtain ⟨filled, hfilled, hread, hfills⟩ := fillBlocks_quiet ho h hq hstart rfl le_rfl
  rw [List.nil_append] at hfilled
  refine ⟨⟨hfills.boundIn (hf.mono hext.table), labels, lastBlock f + 1, fun {label id} => ?_, fun {id} hid => ?_,
    hfilled ▸ hread⟩, hfills.frame⟩
  · rw [hfills.labelAt]
    exact hlabels
  · exact lt_lastBlock_succ ((hfills.hasBlock id).symm.trans hid)

theorem Assembled.same {t : TypeTable} {ds : List BlockDecl} {f g : Function} (h : Assembled t ds f)
    (hblocks : g.blocks = f.blocks) (hg : g.BoundIn t) : Assembled t ds g := by
  obtain ⟨labels, dangling, hlabels, hlt, hfilled⟩ := h.blocks
  refine ⟨hg, labels, dangling, fun {label id} => ?_, fun {id} hid => ?_, hblocks ▸ hfilled⟩
  · rw [Function.labelAt, Function.block?, hblocks]
    exact hlabels
  · rw [Function.hasBlock, hblocks] at hid
    exact hlt hid

structure HeadRead (parent : Option Function) (name : Name) (captures : List String) (f : Function) : Prop where
  named : f.name = name.text
  captured : f.captures = captures
  known : ∀ n ∈ captures, (capturedFrom parent n).isSome = true

theorem buildBody_quiet {parent : Option Function} {name : Name} {params : List Parameter}
    {captures : List String} {body : Members} {span : Span} {f : Function} {b b' : Assembly}
    (h : buildBody parent name params captures body span b = .ok (f, b')) (hq : b'.Quiet)
    (hparent : ∀ p, parent = some p → p.BoundIn b.table) :
    Assembled b'.table body.blocks f ∧ HeadRead parent name captures f := by
  obtain ⟨ownSpan, b₁, hspan, h⟩ := run_bind.1 h
  obtain ⟨rfl, rfl⟩ := run_spanInFile.1 hspan
  obtain ⟨f₁, b₂, hcaptures, h⟩ := run_bind.1 h
  obtain ⟨f₂, b₃, hparams, h⟩ := run_bind.1 h
  obtain ⟨⟨f₃, labels, kept⟩, b₄, hopen, h⟩ := run_bind.1 h
  obtain ⟨filled, b₅, hfill, hscopes⟩ := run_bind.1 h
  have hext₅ := builds_buildScopes _ _ _ _ _ hscopes
  have hext₄ := builds_fillBlocks _ _ _ _ _ hfill
  have hext₃ := builds_openBlocks _ _ _ _ _ _ hopen
  have hq₅ := hext₅.quiet hq
  have hq₄ := hext₄.quiet hq₅
  have hq₃ := hext₃.quiet hq₄
  have hq₂ := (builds_buildParams _ _ _ _ _ _ hparams).quiet hq₃
  -- captured names, then parameters, then empty blocks
  obtain ⟨rfl, hknown, bindings₁, hf₁, hget⟩ := buildCaptures_quiet hcaptures hq₂
  have hbound₁ : f₁.BoundIn b₂.table := boundIn_captures hf₁ hget hknown rfl rfl rfl hparent
  obtain ⟨hbound₂, bindings₂, params₂, forwards₂, hf₂⟩ := buildParams_quiet hparams hq₃ hbound₁ (by rw [hf₁]; rfl)
  have hempty : Labelled f₂ [] := by
    intro label id
    rw [hf₂, hf₁]
    exact ⟨fun hl => (by cases hl), fun hl => (by cases hl)⟩
  obtain ⟨hlabels, new, blocks, hopens, hf₃, hentries⟩ := openBlocks_quiet hopen hq₄ hempty
  have hbound₃ : f₃.BoundIn b₄.table := by
    rw [hf₃]
    exact (hbound₂.mono hext₃.table).same rfl rfl rfl rfl
  have hnew : f₃.blocks.entries = new := by
    rw [hf₃, hentries, hf₂, hf₁]
    rfl
  -- the entry is the first block
  have hfinish : ∀ entry, fillBlocks kept
      { function := { f₃ with entry := entry }, labels := labels, nextSite := 0,
        nextDangling := lastBlock f₃ + 1 } b₄ = .ok (filled, b₅) →
      Assembled b'.table body.blocks f ∧ HeadRead parent name captures f := by
    intro entry hfill
    obtain ⟨hassembled, bindings₄, blocks₄, hf₄⟩ :=
      assembled_of_fillBlocks hopens hfill hq₅ (hbound₃.same rfl rfl rfl rfl) hlabels hnew
    obtain ⟨hbound, bindings₅, hf⟩ := buildScopes_quiet hscopes hq (hassembled.mono hext₅.table).boundIn
    refine ⟨(hassembled.mono hext₅.table).same (by rw [hf]) hbound, ?_, ?_, hknown⟩
    · rw [hf, hf₄, hf₃, hf₂, hf₁]
    · rw [hf, hf₄, hf₃, hf₂, hf₁]
  cases kept with
  | nil => exact hfinish f₃.entry (by cases f₃; exact hfill)
  | cons first rest => exact hfinish first.1 hfill

def FunctionDecl.body : FunctionDecl → Members
  | mk _ _ _ body _ => body

mutual

def FunctionDecl.all : FunctionDecl → List FunctionDecl
  | .mk name params captures body span => .mk name params captures body span :: body.functions

def Members.functions : Members → List FunctionDecl
  | .nil => []
  | .block _ rest => rest.functions
  | .scope _ rest => rest.functions
  | .nested f rest => f.all ++ rest.functions

end

structure ReadFrom (t : TypeTable) (d : FunctionDecl) (f : Function) : Prop where
  named : f.name = d.name.text
  assembled : Assembled t d.body.blocks f
  known : ∀ g ∈ f.nested, ∀ n ∈ g.captures, (f.binding? n).isSome = true

theorem ReadFrom.mono {t t' : TypeTable} {d : FunctionDecl} {f : Function} (h : ReadFrom t d f)
    (ht : t.Extends t') : ReadFrom t' d f :=
  ⟨h.named, h.assembled.mono ht, h.known⟩

def AllRead (t : TypeTable) (ds : List FunctionDecl) (f : Function) : Prop :=
  Everywhere (fun g => ∃ d ∈ ds, ReadFrom t d g) f

theorem AllRead.mono {t t' : TypeTable} {ds ds' : List FunctionDecl} {f : Function} (h : AllRead t ds f)
    (ht : t.Extends t') (hds : ds ⊆ ds') : AllRead t' ds' f := by
  refine Everywhere.imp h ?_
  rintro g ⟨d, hd, hread⟩
  exact ⟨d, hds hd, hread.mono ht⟩

mutual

theorem buildFunction_quiet (parent : Option Function) (d : FunctionDecl) {f : Function} {b b' : Assembly}
    (h : buildFunction parent d b = .ok (f, b')) (hq : b'.Quiet)
    (hparent : ∀ p, parent = some p → p.BoundIn b.table) :
    AllRead b'.table d.all f ∧ ∀ n ∈ f.captures, (capturedFrom parent n).isSome = true := by
  cases d with
  | mk name params captures body span =>
    obtain ⟨g, b₁, hbody, h⟩ := run_bind.1 h
    obtain ⟨nested, b₂, hnested, h⟩ := run_bind.1 h
    obtain ⟨rfl, rfl⟩ := run_pure.1 h
    have hext := builds_buildNested _ _ _ _ _ hnested
    obtain ⟨hassembled, hhead⟩ := buildBody_quiet hbody (hext.quiet hq) hparent
    have hinside := buildNested_quiet g body hnested hq hassembled.boundIn
    refine ⟨.mk ⟨.mk name params captures body span, List.mem_cons_self, hhead.named, ?_,
      fun k hk => (hinside k hk).2⟩ fun k hk => ?_, ?_⟩
    · exact (hassembled.mono hext.table).same rfl
        ((hassembled.boundIn.mono hext.table).same rfl rfl rfl rfl)
    · exact (hinside k hk).1.mono (.refl _) (List.subset_cons_self _ _)
    · intro n hn
      exact hhead.known n (hhead.captured ▸ hn)

theorem buildNested_quiet (parent : Function) (body : Members) {fs : List Function} {b b' : Assembly}
    (h : buildNested parent body b = .ok (fs, b')) (hq : b'.Quiet) (hparent : parent.BoundIn b.table) :
    ∀ g ∈ fs, AllRead b'.table body.functions g ∧ ∀ n ∈ g.captures, (parent.binding? n).isSome = true := by
  cases body with
  | nil =>
    obtain ⟨rfl, rfl⟩ := run_pure.1 h
    simp
  | block d rest => exact buildNested_quiet parent rest h hq hparent
  | scope d rest => exact buildNested_quiet parent rest h hq hparent
  | nested d rest =>
    obtain ⟨inner, b₁, hinner, h⟩ := run_bind.1 h
    obtain ⟨others, b₂, hothers, h⟩ := run_bind.1 h
    obtain ⟨rfl, rfl⟩ := run_pure.1 h
    have hext := builds_buildNested _ _ _ _ _ hothers
    have hext₁ := builds_buildFunction _ _ _ _ _ hinner
    obtain ⟨hread, hknown⟩ := buildFunction_quiet (some parent) d hinner (hext.quiet hq)
      fun p hp => Option.some.inj hp ▸ hparent
    refine List.forall_mem_cons.2 ⟨⟨hread.mono hext.table (List.subset_append_left _ _), fun n hn => ?_⟩,
      fun g hg => ?_⟩
    · have hsome := hknown n hn
      rwa [capturedFrom, Option.isSome_map] at hsome
    · obtain ⟨hread, hknown⟩ := buildNested_quiet parent rest hothers hq (hparent.mono hext₁.table) g hg
      exact ⟨hread.mono (.refl _) (List.subset_append_right _ _), hknown⟩

end

end Text
end MovePlan
