import MovePlan.Proofs.Text.Statements

set_option autoImplicit false

namespace MovePlan
namespace Text

structure BlockRead (d : BlockDecl) (e : BlockId × Block) : Prop where
  id : ∃ v : ℕ, d.id.value? = some v ∧ e.1 = (v : ℤ)
  label : e.2.label = d.label.map Name.text
  sites : List.Forall₂ Transcribes (d.body.filterMap Statement.site?) e.2.sites
  jumps : (e.2.edges.filter (·.kind = .jump)).map Edge.label = (d.body.filterMap Statement.jump?).map some

/-- The blocks that are made of declarations, and the statements that are kept to fill them. -/
inductive Opens : List BlockDecl → List (BlockId × List Statement) → List (BlockId × Block) → Prop
  | nil : Opens [] [] []
  | cons {d : BlockDecl} {v : ℕ} {span : Span} {ds : List BlockDecl} {kept : List (BlockId × List Statement)}
      {new : List (BlockId × Block)} (hv : d.id.value? = some v) (hrest : Opens ds kept new) :
      Opens (d :: ds) (((v : ℤ), d.body) :: kept)
        (((v : ℤ), { label := d.label.map Name.text, span := span }) :: new)

def Labelled (f : Function) (labels : List (String × BlockId)) : Prop :=
  ∀ {label : String} {id : BlockId}, f.labelAt id = some label ↔ lastWrite label labels = some id

theorem Labelled.putBlock {f : Function} {labels : List (String × BlockId)} (h : Labelled f labels) {id : BlockId}
    (hfresh : f.hasBlock id ≠ true) {blk : Block} (hblk : blk.label = none) :
    Labelled { f with blocks := f.blocks.put id blk } labels := by
  intro label x
  rw [Function.labelAt_putBlock, hblk]
  split
  next heq => rw [← h, heq, Function.labelAt_of_hasBlock hfresh]
  next => exact h

theorem Labelled.putLabel {f : Function} {labels : List (String × BlockId)} (h : Labelled f labels) {id : BlockId}
    (hfresh : f.hasBlock id ≠ true) {l : String} (hl : lastWrite l labels = none) {blk : Block}
    (hblk : blk.label = some l) :
    Labelled { f with blocks := f.blocks.put id blk } (labels ++ [(l, id)]) := by
  intro label x
  rw [Function.labelAt_putBlock, hblk, lastWrite_concat]
  by_cases hlabel : l = label
  · subst hlabel
    rw [if_pos rfl]
    split
    next heq => simp [heq]
    next hne =>
      rw [h, hl]
      simp [Ne.symm hne]
  · rw [if_neg hlabel]
    split
    next heq =>
      rw [← h, heq, Function.labelAt_of_hasBlock hfresh]
      simp [hlabel]
    next => exact h

theorem entries_put {f : Function} {id : BlockId} (hfresh : f.hasBlock id ≠ true) (blk : Block) :
    (f.blocks.put id blk).entries = f.blocks.entries ++ [(id, blk)] :=
  OrderedMap.putIn_of_not_mem fun hmem => hfresh ((OrderedMap.contains_iff _ _).2 hmem)

theorem openBlocks_quiet {ds : List BlockDecl} {f g : Function} {labels labels' : List (String × BlockId)}
    {kept : List (BlockId × List Statement)} {b b' : Assembly}
    (h : openBlocks ds f labels b = .ok ((g, labels', kept), b')) (hq : b'.Quiet) (hf : Labelled f labels) :
    Labelled g labels' ∧ ∃ new blocks, Opens ds kept new ∧ g = { f with blocks := blocks } ∧
      blocks.entries = f.blocks.entries ++ new := by
  induction ds generalizing f labels b kept with
  | nil =>
    obtain ⟨hr, -⟩ := run_pure.1 h
    obtain ⟨rfl, rfl, rfl⟩ : f = g ∧ labels = labels' ∧ [] = kept := by simpa using hr
    exact ⟨hf, [], f.blocks, .nil, by cases f; rfl, (List.append_nil _).symm⟩
  | cons d rest ih =>
    obtain ⟨number, label, statements, at_⟩ := d
    obtain ⟨id, b₁, hid, h⟩ := run_bind.1 h
    obtain ⟨⟨v, hv, rfl⟩, rfl⟩ := run_valueOf.1 hid
    split at h
    next => exact absurd hq (not_quiet_of_report h fun _ => builds_openBlocks _ _ _)
    next hfresh =>
      -- what follows the look at the label
      have hrest : ∀ {labels₁ : List (String × BlockId)},
          (∀ span, Labelled { f with
            blocks := f.blocks.put (v : ℤ) { label := label.map Name.text, span := span } } labels₁) →
          (do
            let span ← spanInFile at_
            let r ← openBlocks rest
              { f with blocks := f.blocks.put (v : ℤ) { label := label.map Name.text, span := span } } labels₁
            return (r.1, r.2.1, ((v : ℤ), statements) :: r.2.2) : Assemble _) b = .ok ((g, labels', kept), b') →
          Labelled g labels' ∧ ∃ new blocks, Opens (⟨number, label, statements, at_⟩ :: rest) kept new ∧
            g = { f with blocks := blocks } ∧ blocks.entries = f.blocks.entries ++ new := by
        intro labels₁ hlabels h
        obtain ⟨span, b₂, hspan, h⟩ := run_bind.1 h
        obtain ⟨rfl, rfl⟩ := run_spanInFile.1 hspan
        obtain ⟨⟨g', labels₂, kept'⟩, b₃, hopen, h⟩ := run_bind.1 h
        obtain ⟨hr, rfl⟩ := run_pure.1 h
        obtain ⟨rfl, rfl, rfl⟩ : g' = g ∧ labels₂ = labels' ∧ ((v : ℤ), statements) :: kept' = kept := by
          simpa using hr
        obtain ⟨hg, new, blocks, hnew, rfl, hentries⟩ := ih hopen (hlabels _)
        refine ⟨hg, ((v : ℤ), { label := label.map Name.text, span := at_.withFile b.file }) :: new,
          blocks, .cons hv hnew, rfl, ?_⟩
        rw [hentries, entries_put hfresh, List.append_assoc, List.singleton_append]
      cases label with
      | none => exact hrest (fun span => hf.putBlock hfresh rfl) h
      | some l =>
        dsimp only at h
        split at h
        next =>
          refine absurd hq (not_quiet_of_report h fun _ => (Builds.pure _).bind fun _ => ?_)
          exact (Builds.spanInFile _).bind fun _ => (builds_openBlocks _ _ _).bind fun _ => .pure _
        next hl =>
          exact hrest (fun span => hf.putLabel hfresh (Option.not_isSome_iff_eq_none.1 hl) rfl) h

/-- Filled blocks are what is written, in order, and their sites are numbered throughout. -/
structure Filled (t : TypeTable) (labels : List (String × BlockId)) (dangling : BlockId) (first : ℕ)
    (ds : List BlockDecl) (filled : List (BlockId × Block)) : Prop where
  read : List.Forall₂ BlockRead ds filled
  ids : (filled.flatMap (·.2.sites)).map Site.id =
    (List.range' first (filled.flatMap (·.2.sites)).length).map fun (n : ℕ) => (n : ℤ)
  edges : ∀ {x : BlockId × Block} {e : Edge}, x ∈ filled → e ∈ x.2.edges →
    e.src = x.1 ∧ (e.kind = .jump → DrawnTo labels dangling e)
  sites : ∀ {x : BlockId × Block} {i : ℕ} {s : Site}, x ∈ filled → x.2.sites[i]? = some s →
    ∃ n, StandsAt t n x.1 i s

theorem Filled.cons {t : TypeTable} {labels : List (String × BlockId)} {dangling id : BlockId} {first : ℕ}
    {d : BlockDecl} {ds : List BlockDecl} {filled : List (BlockId × Block)} {body : Body} {blk : Block}
    (h : BlockRead d (id, blk)) (ho : InOrder t labels dangling id first (body, blk))
    (hrest : Filled t labels dangling body.nextSite ds filled) :
    Filled t labels dangling first (d :: ds) ((id, blk) :: filled) where
  read := .cons h hrest.read
  ids := by
    have hblk : blk.sites.map Site.id = (List.range' first blk.sites.length).map fun (n : ℕ) => (n : ℤ) := by
      refine List.ext_getElem? fun i => ?_
      rw [List.getElem?_map, List.getElem?_map]
      cases hs : blk.sites[i]? with
      | none =>
        have hle := List.getElem?_eq_none_iff.1 hs
        rw [List.getElem?_eq_none (by rwa [List.length_range'])]
        rfl
      | some s =>
        have hlt := (List.getElem?_eq_some_iff.1 hs).1
        rw [List.getElem?_range' hlt]
        simp [(ho.sites hs).id]
    have hnext : body.nextSite = first + blk.sites.length := ho.next
    rw [List.flatMap_cons, List.map_append, hblk, hrest.ids, hnext, ← List.map_append, List.range'_append_1,
      List.length_append]
  edges := by
    intro x e hx he
    rcases List.mem_cons.1 hx with rfl | hx
    · exact ho.edges he
    · exact hrest.edges hx he
  sites := by
    intro x i s hx hs
    rcases List.mem_cons.1 hx with rfl | hx
    · exact ⟨_, ho.sites hs⟩
    · exact hrest.sites hx hs

structure Fills (t : TypeTable) (f g : Function) : Prop where
  frame : ∃ bindings blocks, g = { f with bindings := bindings, blocks := blocks }
  boundIn : f.BoundIn t → g.BoundIn t
  labels : ∀ id, (g.block? id).map Block.label = (f.block? id).map Block.label

theorem Fills.refl (t : TypeTable) (f : Function) : Fills t f f :=
  ⟨⟨f.bindings, f.blocks, by cases f; rfl⟩, fun h => h, fun _ => rfl⟩

theorem Fills.trans {t : TypeTable} {f g k : Function} (h : Fills t f g) (h' : Fills t g k) : Fills t f k := by
  obtain ⟨bindings, blocks, hg⟩ := h.frame
  obtain ⟨bindings', blocks', hk⟩ := h'.frame
  exact ⟨⟨bindings', blocks', by rw [hk, hg]⟩, fun hf => h'.boundIn (h.boundIn hf),
    fun id => (h'.labels id).trans (h.labels id)⟩

theorem Fills.labelAt {t : TypeTable} {f g : Function} (h : Fills t f g) (id : BlockId) :
    g.labelAt id = f.labelAt id := by
  have hlabel := h.labels id
  rw [Function.labelAt, Function.labelAt]
  cases hg : g.block? id <;> cases hf : f.block? id <;> simp_all

theorem Fills.hasBlock {t : TypeTable} {f g : Function} (h : Fills t f g) (id : BlockId) :
    g.hasBlock id = f.hasBlock id := by
  have hsome := congrArg Option.isSome (h.labels id)
  rwa [Option.isSome_map, Option.isSome_map] at hsome

theorem Frame.fills {t : TypeTable} {body body₁ : Body} {blk blk₁ : Block}
    (h : Frame t (body, blk) (body₁, blk₁)) {id : BlockId} (hblk : body.function.block? id = some blk) :
    Fills t body.function { body₁.function with blocks := body₁.function.blocks.put id blk₁ } := by
  obtain ⟨bindings, hf⟩ := h.bindings
  have hf : body₁.function = { body.function with bindings := bindings } := hf
  refine ⟨⟨bindings, _, by rw [hf]⟩, fun hb => (h.boundIn hb).same rfl rfl rfl rfl, fun x => ?_⟩
  rw [Function.block?_putBlock, hf]
  split
  next heq => rw [heq, hblk, Option.map_some, Option.map_some, h.label]
  next => rfl

theorem fillBlocks_quiet {ds : List BlockDecl} {kept : List (BlockId × List Statement)}
    {new done : List (BlockId × Block)} (ho : Opens ds kept new) {labels : List (String × BlockId)}
    {dangling : BlockId} {body body' : Body} {b b' : Assembly}
    (h : fillBlocks kept body b = .ok (body', b')) (hq : b'.Quiet)
    (hentries : body.function.blocks.entries = done ++ new) (hlabels : body.labels = labels)
    (hfree : dangling ≤ body.nextDangling) :
    ∃ filled, body'.function.blocks.entries = done ++ filled ∧
      Filled b'.table labels dangling body.nextSite ds filled ∧ Fills b'.table body.function body'.function := by
  induction ho generalizing done body b with
  | nil =>
    obtain ⟨rfl, rfl⟩ := run_pure.1 h
    exact ⟨[], hentries, ⟨.nil, rfl, fun hx => by simp at hx, fun hx => by simp at hx⟩, .refl _ _⟩
  | @cons d v span ds kept new hv hrest ih =>
    obtain ⟨⟨body₁, blk⟩, b₁, hst, h⟩ := run_bind.1 h
    have hext := builds_fillBlocks _ _ _ _ _ h
    have hblock : body.function.block? (v : ℤ) = some { label := d.label.map Name.text, span := span } := by
      refine (OrderedMap.get?_eq_some_iff _ _ _).2 ?_
      rw [hentries]
      simp
    rw [hblock] at hst
    have hsteps := (steps_of_buildStatements hst (hext.quiet hq)).mono hext.table
    have hin : InOrder b'.table labels dangling (v : ℤ) body.nextSite (body₁, blk) :=
      hsteps.inOrder ⟨hlabels, hfree, rfl, fun he => by simp at he, fun hs => by simp at hs⟩
    have hput : (body₁.function.blocks.put (v : ℤ) blk).entries = (done ++ [((v : ℤ), blk)]) ++ new := by
      obtain ⟨bindings, hf⟩ := hsteps.frame.bindings
      have hnodup := body.function.blocks.nodup
      rw [hentries, List.map_append, List.nodup_append] at hnodup
      have hnot : (v : ℤ) ∉ done.map Prod.fst := fun hmem => hnodup.2.2 _ hmem _ List.mem_cons_self rfl
      have hblocks : body₁.function.blocks = body.function.blocks := by rw [hf]
      change OrderedMap.putIn (v : ℤ) blk body₁.function.blocks.entries = _
      rw [hblocks, hentries, OrderedMap.putIn_middle hnot, List.append_assoc, List.singleton_append]
    obtain ⟨filled, hfilled, hread, hfills⟩ := ih h hput hin.known hin.free
    refine ⟨((v : ℤ), blk) :: filled, by rw [hfilled, List.append_assoc, List.singleton_append], ?_,
      (hsteps.frame.fills hblock).trans hfills⟩
    refine .cons ⟨⟨v, hv, rfl⟩, hsteps.frame.label, ?_, hsteps.jumps⟩ hin hread
    obtain ⟨sites, hsites, htranscribes⟩ := hsteps.transcribes
    exact hsites ▸ htranscribes

end Text
end MovePlan
