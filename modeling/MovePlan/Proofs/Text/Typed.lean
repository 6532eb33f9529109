import MovePlan.Proofs.Text.Types
import MovePlan.Proofs.Types.Names

set_option autoImplicit false

namespace MovePlan

structure Function.TypedIn (f : Function) (t : TypeTable) : Prop where
  binding : ∀ {name : String} {x : Binding}, f.binding? name = some x → t.contains x.type = true
  temp : ∀ {id : BlockId} {s : Site} {type : TypeId}, s ∈ f.sitesAt id → s.tempType = some type →
    t.contains type = true

namespace Function.TypedIn
variable {f g : Function} {t t' : TypeTable}

theorem mono (h : f.TypedIn t) (ht : t.Extends t') : f.TypedIn t' :=
  ⟨fun hx => ht.contains (h.binding hx), fun hs htype => ht.contains (h.temp hs htype)⟩

theorem same (h : f.TypedIn t) (hblocks : g.blocks = f.blocks) (hbindings : g.bindings = f.bindings) :
    g.TypedIn t where
  binding hx := by
    rw [Function.binding?, hbindings] at hx
    exact h.binding hx
  temp hs := by
    rw [Function.sitesAt, Function.block?, hblocks] at hs
    exact h.temp hs

theorem put (h : f.TypedIn t) {name : String} {x : Binding} (hblocks : g.blocks = f.blocks)
    (hbindings : g.bindings = f.bindings.put name x) (hx : t.contains x.type = true) : g.TypedIn t where
  binding hy := by
    rw [Function.binding?, hbindings, OrderedMap.get?_put] at hy
    split at hy
    · rw [← Option.some.inj hy]
      exact hx
    · exact h.binding hy
  temp hs := by
    rw [Function.sitesAt, Function.block?, hblocks] at hs
    exact h.temp hs

theorem putBlock (h : f.TypedIn t) {id : BlockId} {blk : Block}
    (hblk : ∀ s ∈ blk.sites, ∀ type, s.tempType = some type → t.contains type = true) :
    Function.TypedIn { f with blocks := f.blocks.put id blk } t where
  binding hx := h.binding hx
  temp {x s type} hs htype := by
    rw [Function.sitesAt_putBlock] at hs
    split at hs
    · exact hblk s hs type htype
    · exact h.temp hs htype

end Function.TypedIn

namespace Text

theorem contains_of_ensureUnknown {b b' : Assembly} {id : TypeId}
    (h : onTable TypeTable.ensureUnknown b = .ok (id, b')) (hb : b.table.Built) :
    b'.table.contains id = true := by
  obtain ⟨t', ht, rfl⟩ := run_onTable.1 h
  rw [TypeTable.ensureUnknown] at ht
  split at ht
  next known hknown =>
    obtain ⟨rfl, rfl⟩ := Prod.mk.inj (Except.ok.inj ht)
    exact (hb.basicNamed.unknown hknown).1
  next =>
    obtain ⟨⟨t, i⟩, hregister, heq⟩ := bind_eq_ok.1 ht
    obtain ⟨rfl, rfl⟩ := Prod.mk.inj (pure_eq_ok.1 heq)
    obtain ⟨rfl, rfl⟩ := TypeTable.append_of_register hregister
    exact TypeTable.contains_append _

theorem registered_of_resolveType {e : TypeExpr} {b b' : Assembly} {id : TypeId}
    (h : resolveType e b = .ok (id, b')) (hb : b.table.Built) : b'.table.contains id = true := by
  rcases resolveType_cases h with hcontains | ⟨message, span, h⟩
  · exact hcontains
  · obtain ⟨_, b₁, hreport, h⟩ := run_bind.1 h
    refine contains_of_ensureUnknown h ?_
    rw [run_reportAs hreport]
    exact hb

theorem buildCaptures_typed {parent : Option Function} {span : Span} {names : List String} {f g : Function}
    {b b' : Assembly} (h : buildCaptures parent span names f b = .ok (g, b')) (hb : b.table.Built)
    (hparent : ∀ p, parent = some p → p.TypedIn b.table) (hf : f.TypedIn b.table) : g.TypedIn b'.table := by
  induction names generalizing f b with
  | nil =>
    obtain ⟨rfl, rfl⟩ := run_pure.1 h
    exact hf
  | cons name rest ih =>
    rw [buildCaptures] at h
    cases hx : parent.bind fun p => p.binding? name with
    | some x =>
      simp only [hx] at h
      obtain ⟨p, hp, hname⟩ := Option.bind_eq_some_iff.1 hx
      have hcontains : b.table.contains x.type = true := (hparent p hp).binding hname
      exact ih h hb hparent (hf.put rfl rfl hcontains)
    | none =>
      simp only [hx] at h
      obtain ⟨_, b₁, hreport, h⟩ := run_bind.1 h
      obtain ⟨type, b₂, hunknown, h⟩ := run_bind.1 h
      have hb₁ := (Builds.report _ _ _ _ _ _ hreport).table
      have hb₂ := hb₁.trans (builds_ensureUnknown _ _ _ hunknown).table
      refine ih h (hb₂.built hb) (fun p hp => (hparent p hp).mono hb₂) ?_
      exact (hf.mono hb₂).put rfl rfl (contains_of_ensureUnknown hunknown (hb₁.built hb))

theorem buildParam_typed {index : ℕ} {p : Parameter} {f g : Function} {b b' : Assembly}
    (h : buildParam index p f b = .ok (g, b')) (hb : b.table.Built) (hf : f.TypedIn b.table) :
    g.TypedIn b'.table := by
  obtain ⟨type, b₁, htype, h⟩ := run_bind.1 h
  have hcontains := registered_of_resolveType htype hb
  have hf₁ := hf.mono (builds_resolveType _ _ _ _ htype).table
  dsimp only at h
  split at h
  next =>
    obtain ⟨_, b₂, hreport, h⟩ := run_bind.1 h
    obtain ⟨rfl, rfl⟩ := run_pure.1 h
    exact hf₁.mono (Builds.report _ _ _ _ _ _ hreport).table
  next =>
    -- what follows the look at the mark for forwarding
    have hrest : ∀ {b₂ : Assembly} {span : Span} {forwards : List Int}, b₁.table.Extends b₂.table →
        Function.TypedIn { f with
          bindings := f.bindings.put p.name.text
            { name := p.name.text, type := type, isParam := true, mode := p.mode.getD .value, span := span }
          params := f.params ++ [p.name.text]
          forwards := forwards } b₂.table :=
      fun hext => (hf₁.mono hext).put rfl rfl (hext.contains hcontains)
    split at h
    next =>
      obtain ⟨_, b₂, hreport, h⟩ := run_bind.1 h
      obtain ⟨span, b₃, hspan, h⟩ := run_bind.1 h
      obtain ⟨rfl, rfl⟩ := run_pure.1 h
      exact hrest ((Builds.report _ _ _ _ _ _ hreport).trans (Builds.spanInFile _ _ _ _ hspan)).table
    next =>
      obtain ⟨span, b₃, hspan, h⟩ := run_bind.1 h
      obtain ⟨rfl, rfl⟩ := run_pure.1 h
      exact hrest (Builds.spanInFile _ _ _ _ hspan).table

theorem buildParams_typed {index : ℕ} {ps : List Parameter} {f g : Function} {b b' : Assembly}
    (h : buildParams index ps f b = .ok (g, b')) (hb : b.table.Built) (hf : f.TypedIn b.table) :
    g.TypedIn b'.table := by
  induction ps generalizing index f b with
  | nil =>
    obtain ⟨rfl, rfl⟩ := run_pure.1 h
    exact hf
  | cons p rest ih =>
    obtain ⟨f₁, b₁, hp, h⟩ := run_bind.1 h
    exact ih h ((builds_buildParam _ _ _ _ _ _ hp).table.built hb) (buildParam_typed hp hb hf)

theorem buildScopes_typed {ds : List ScopeDecl} {f g : Function} {t : TypeTable} {b b' : Assembly}
    (h : buildScopes ds f b = .ok (g, b')) (hf : f.TypedIn t) : g.TypedIn t := by
  induction ds generalizing f b with
  | nil =>
    obtain ⟨rfl, rfl⟩ := run_pure.1 h
    exact hf
  | cons d rest ih =>
    rw [buildScopes] at h
    cases hx : f.binding? d.name.text with
    | none =>
      simp only [hx] at h
      obtain ⟨_, b₁, -, h⟩ := run_bind.1 h
      exact ih h hf
    | some x =>
      simp only [hx] at h
      split at h
      next =>
        obtain ⟨_, b₁, -, h⟩ := run_bind.1 h
        exact ih h hf
      next =>
        obtain ⟨region, b₁, -, h⟩ := run_bind.1 h
        have hcontains : t.contains x.type = true := hf.binding hx
        exact ih h (hf.put rfl rfl hcontains)

theorem openBlocks_typed {ds : List BlockDecl} {f : Function} {labels : List (String × BlockId)}
    {t : TypeTable} (hf : f.TypedIn t) : Yields (fun r => r.1.TypedIn t) (openBlocks ds f labels) := by
  induction ds generalizing f labels with
  | nil => exact Yields.pure hf
  | cons d rest ih =>
    refine Yields.after fun id => Yields.ite (fun _ => Yields.after fun _ => ih hf) fun _ => ?_
    have hrest : ∀ labels', Yields (fun r => r.1.TypedIn t) (do
        let span ← spanInFile d.span
        let r ← openBlocks rest
          { f with blocks := f.blocks.put id { label := d.label.map Name.text, span := span } } labels'
        return (r.1, r.2.1, (id, d.body) :: r.2.2)) := fun labels' =>
      Yields.after fun span => Yields.bind (ih (hf.putBlock (by simp))) fun r hr => Yields.pure hr
    split
    · exact hrest _
    · exact Yields.ite (fun _ => Yields.after fun _ => hrest _) fun _ => hrest _

/-- A site that is added brings a local and has a type that are those of the table. -/
structure SiteTyped (t : TypeTable) (f : Function) (r : Function × Option Site) : Prop where
  binding : ∀ {name : String} {x : Binding}, r.1.binding? name = some x →
    f.binding? name = some x ∨ t.contains x.type = true
  blocks : r.1.blocks = f.blocks
  temp : ∀ {s : Site} {type : TypeId}, r.2 = some s → s.tempType = some type → t.contains type = true

theorem SiteTyped.untyped {t : TypeTable} {f : Function} {s : Option Site}
    (h : ∀ x, s = some x → x.tempType = none) : SiteTyped t f (f, s) :=
  ⟨.inl, rfl, fun hs htype => by rw [h _ hs] at htype; cases htype⟩

theorem buildSite_typed {f : Function} {number index : ℕ} {block : BlockId} {span : Span} {e : SiteExpr}
    {b b' : Assembly} {r : Function × Option Site}
    (h : buildSite f number block index span e b = .ok (r, b')) (hb : b.table.Built) :
    SiteTyped b'.table f r := by
  have haccess : ∀ {kind : SiteKind} {place : PlaceExpr},
      buildSite.access f number block index span kind place b = .ok (r, b') → SiteTyped b'.table f r := by
    intro kind place h
    obtain ⟨at_, b₁, hspan, h⟩ := run_bind.1 h
    obtain ⟨rfl, rfl⟩ := run_pure.1 h
    exact .untyped fun x hx => by rw [← Option.some.inj hx]
  cases e with
  | decl name type =>
    obtain ⟨t, b₁, htype, h⟩ := run_bind.1 h
    have hcontains := registered_of_resolveType htype hb
    split at h
    next =>
      obtain ⟨_, b₂, hreport, h⟩ := run_bind.1 h
      obtain ⟨rfl, rfl⟩ := run_pure.1 h
      exact .untyped fun x hx => by cases hx
    next =>
      obtain ⟨at_, b₂, hspan, h⟩ := run_bind.1 h
      obtain ⟨rfl, rfl⟩ := run_pure.1 h
      have hext := (Builds.spanInFile _ _ _ _ hspan).table
      refine ⟨fun {n x} hx => ?_, rfl, fun {s type} hs htype => ?_⟩
      · rw [Function.binding?, OrderedMap.get?_put] at hx
        split at hx
        · rw [← Option.some.inj hx]
          exact .inr (hext.contains hcontains)
        · exact .inl hx
      · rw [← Option.some.inj hs] at htype
        cases htype
  | temp type target =>
    obtain ⟨t, b₁, htype, h⟩ := run_bind.1 h
    obtain ⟨target, b₂, htarget, h⟩ := run_bind.1 h
    obtain ⟨at_, b₃, hspan, h⟩ := run_bind.1 h
    obtain ⟨rfl, rfl⟩ := run_pure.1 h
    have hext := ((builds_buildTarget _ _ _ _ htarget).trans (Builds.spanInFile _ _ _ _ hspan)).table
    refine ⟨.inl, rfl, fun {s type} hs htemp => ?_⟩
    rw [← Option.some.inj hs] at htemp
    rw [← Option.some.inj htemp]
    exact hext.contains (registered_of_resolveType htype hb)
  | move flags place target =>
    obtain ⟨target, b₁, -, h⟩ := run_bind.1 h
    obtain ⟨at_, b₂, -, h⟩ := run_bind.1 h
    obtain ⟨rfl, rfl⟩ := run_pure.1 h
    exact .untyped fun x hx => by rw [← Option.some.inj hx]
  | read place => exact haccess h
  | write place => exact haccess h
  | addr place => exact haccess h

theorem SiteTyped.withBlock {t : TypeTable} {f : Function} {r : Function × Option Site} (h : SiteTyped t f r)
    {id : BlockId} {blk : Block} (hf : (withBlock f id blk).TypedIn t) :
    (Text.withBlock r.1 id { blk with sites := blk.sites ++ r.2.toList }).TypedIn t where
  binding hx := (h.binding hx).elim hf.binding fun hx => hx
  temp {x s type} hs htype := by
    have hold : s ∈ (Text.withBlock f id blk).sitesAt x → t.contains type = true := fun hs => hf.temp hs htype
    rw [Text.withBlock, Function.sitesAt_putBlock] at hs hold
    split at hs
    next heq =>
      rw [if_pos heq] at hold
      refine (List.mem_append.1 hs).elim hold fun hs => ?_
      exact h.temp (Option.mem_toList.1 hs) htype
    next hne =>
      rw [if_neg hne] at hold
      rw [Function.sitesAt, Function.block?, h.blocks] at hs
      exact hold hs

theorem buildStatements_typed {id : BlockId} {statements : List Statement} {body body' : Body}
    {blk blk' : Block} {b b' : Assembly}
    (h : buildStatements id statements body blk b = .ok ((body', blk'), b')) (hb : b.table.Built)
    (hf : (withBlock body.function id blk).TypedIn b.table) :
    (withBlock body'.function id blk').TypedIn b'.table := by
  have hedges : ∀ {t : TypeTable} {f : Function} {blk : Block} {edges : List Edge},
      (withBlock f id blk).TypedIn t → (withBlock f id { blk with edges := edges }).TypedIn t := by
    intro t f blk edges hf
    refine ⟨hf.binding, fun {x s type} hs => ?_⟩
    have hold : s ∈ (withBlock f id blk).sitesAt x := by
      rw [withBlock, Function.sitesAt_putBlock] at hs ⊢
      exact hs
    exact hf.temp hold
  induction statements generalizing body blk b with
  | nil =>
    obtain ⟨heq, rfl⟩ := run_pure.1 h
    obtain ⟨rfl, rfl⟩ := Prod.mk.inj heq
    exact hf
  | cons st rest ih =>
    cases st with
    | ret => exact ih h hb hf
    | edge word dst =>
      obtain ⟨v, b₁, hv, h⟩ := run_bind.1 h
      obtain ⟨-, rfl⟩ := run_valueOf.1 hv
      exact ih h hb (hedges hf)
    | jump label => exact ih h hb (hedges hf)
    | site e span =>
      obtain ⟨r, b₁, hsite, h⟩ := run_bind.1 h
      have hext := (builds_buildSite _ _ _ _ _ _ _ _ _ hsite).table
      exact ih h (hext.built hb) ((buildSite_typed hsite hb).withBlock (hf.mono hext))

theorem fillBlocks_typed {kept : List (BlockId × List Statement)} {body body' : Body} {b b' : Assembly}
    (h : fillBlocks kept body b = .ok (body', b')) (hb : b.table.Built)
    (hf : body.function.TypedIn b.table) : body'.function.TypedIn b'.table := by
  induction kept generalizing body b with
  | nil =>
    obtain ⟨rfl, rfl⟩ := run_pure.1 h
    exact hf
  | cons e rest ih =>
    obtain ⟨id, statements⟩ := e
    obtain ⟨⟨body₁, blk⟩, b₁, hst, h⟩ := run_bind.1 h
    have hext := (builds_buildStatements _ _ _ _ _ _ _ hst).table
    refine ih h (hext.built hb) (buildStatements_typed hst hb (hf.putBlock fun s hs type htype => ?_))
    rw [Function.sites_getD_block] at hs
    exact hf.temp hs htype

theorem buildBody_typed {parent : Option Function} {name : Name} {params : List Parameter}
    {captures : List String} {body : Members} {span : Span} {f : Function} {b b' : Assembly}
    (h : buildBody parent name params captures body span b = .ok (f, b')) (hb : b.table.Built)
    (hparent : ∀ p, parent = some p → p.TypedIn b.table) : f.TypedIn b'.table := by
  obtain ⟨ownSpan, b₁, hspan, h⟩ := run_bind.1 h
  obtain ⟨rfl, rfl⟩ := run_spanInFile.1 hspan
  obtain ⟨f₁, b₁, hcaptures, h⟩ := run_bind.1 h
  obtain ⟨f₂, b₂, hparams, h⟩ := run_bind.1 h
  obtain ⟨⟨f₃, labels, kept⟩, b₃, hopen, h⟩ := run_bind.1 h
  obtain ⟨filled, b₄, hfill, hscopes⟩ := run_bind.1 h
  have hext₁ := (builds_buildCaptures _ _ _ _ _ _ _ hcaptures).table
  have hext₂ := (builds_buildParams _ _ _ _ _ _ hparams).table
  have hext₃ := (builds_openBlocks _ _ _ _ _ _ hopen).table
  have hstart : Function.TypedIn { name := name.text, span := span.withFile b.file, captures := captures }
      b.table := ⟨fun hx => (by cases hx), fun hs => by cases hs⟩
  have hf₁ := buildCaptures_typed hcaptures hb hparent hstart
  have hf₂ := buildParams_typed hparams (hext₁.built hb) hf₁
  have hf₃ : f₃.TypedIn b₃.table := openBlocks_typed (hf₂.mono hext₃) _ _ _ hopen
  have hf₄ : filled.function.TypedIn b₄.table := by
    refine fillBlocks_typed hfill (hext₃.built (hext₂.built (hext₁.built hb))) ?_
    cases kept with
    | nil => exact hf₃
    | cons first rest => exact hf₃.same rfl rfl
  exact (buildScopes_typed hscopes hf₄).mono (builds_buildScopes _ _ _ _ _ hscopes).table

mutual

theorem buildFunction_typed (parent : Option Function) (d : FunctionDecl) {f : Function} {b b' : Assembly}
    (h : buildFunction parent d b = .ok (f, b')) (hb : b.table.Built)
    (hparent : ∀ p, parent = some p → p.TypedIn b.table) : Everywhere (Function.TypedIn · b'.table) f := by
  cases d with
  | mk name params captures body span =>
    obtain ⟨g, b₁, hbody, h⟩ := run_bind.1 h
    obtain ⟨nested, b₂, hnested, h⟩ := run_bind.1 h
    obtain ⟨rfl, rfl⟩ := run_pure.1 h
    have hbuilt := (builds_buildBody _ _ _ _ _ _ _ _ _ hbody).table.built hb
    have hg := buildBody_typed hbody hb hparent
    refine .mk ?_ (buildNested_typed g body hnested hbuilt hg)
    exact (hg.mono (builds_buildNested _ _ _ _ _ hnested).table).same rfl rfl

theorem buildNested_typed (parent : Function) (body : Members) {fs : List Function} {b b' : Assembly}
    (h : buildNested parent body b = .ok (fs, b')) (hb : b.table.Built) (hparent : parent.TypedIn b.table) :
    ∀ g ∈ fs, Everywhere (Function.TypedIn · b'.table) g := by
  cases body with
  | nil =>
    obtain ⟨rfl, rfl⟩ := run_pure.1 h
    simp
  | block d rest => exact buildNested_typed parent rest h hb hparent
  | scope d rest => exact buildNested_typed parent rest h hb hparent
  | nested d rest =>
    obtain ⟨inner, b₁, hinner, h⟩ := run_bind.1 h
    obtain ⟨others, b₂, hothers, h⟩ := run_bind.1 h
    obtain ⟨rfl, rfl⟩ := run_pure.1 h
    have hext₁ := (builds_buildFunction _ _ _ _ _ hinner).table
    have hext₂ := (builds_buildNested _ _ _ _ _ hothers).table
    refine List.forall_mem_cons.2 ⟨?_, ?_⟩
    · have hfirst := buildFunction_typed (some parent) d hinner hb fun p hp => Option.some.inj hp ▸ hparent
      exact hfirst.imp fun _ hg => hg.mono hext₂
    · exact buildNested_typed parent rest hothers (hext₁.built hb) (hparent.mono hext₁)

end

theorem buildFunctions_typed {seen : List String} {ds : List Declaration} {fs : List Function}
    {b b' : Assembly} (h : buildFunctions seen ds b = .ok (fs, b')) (hb : b.table.Built) :
    ∀ g ∈ fs, Everywhere (Function.TypedIn · b'.table) g := by
  induction ds generalizing seen b fs with
  | nil =>
    obtain ⟨rfl, rfl⟩ := run_pure.1 h
    simp
  | cons d rest ih =>
    cases d with
    | type name isScalar attributes span => exact ih h hb
    | struct name attributes fields span => exact ih h hb
    | function d =>
      obtain ⟨f, b₁, hf, h⟩ := run_bind.1 h
      have hb₁ := (builds_buildFunction _ _ _ _ _ hf).table.built hb
      split at h
      next =>
        obtain ⟨_, b₂, hreport, h⟩ := run_bind.1 h
        exact ih h ((Builds.report _ _ _ _ _ _ hreport).table.built hb₁)
      next =>
        obtain ⟨others, b₂, hothers, h⟩ := run_bind.1 h
        obtain ⟨rfl, rfl⟩ := run_pure.1 h
        refine List.forall_mem_cons.2 ⟨?_, ih hothers hb₁⟩
        have hfirst := buildFunction_typed none d hf hb fun p hp => by cases hp
        exact hfirst.imp fun _ hg => hg.mono (builds_buildFunctions _ _ _ _ _ hothers).table

theorem declareNew_id {name : Name} {register : TypeTable → Except TypeError (TypeTable × TypeId)}
    {d : TypeDef} (hregister : ∀ t, register t = t.register d) {b b' : Assembly} {id : TypeId}
    (h : declareNew name register b = .ok (some id, b')) : id = (b.table.size : Int) + 1 := by
  obtain ⟨known, b₁, hknown, h⟩ := run_bind.1 h
  obtain ⟨-, rfl⟩ := run_lookupType.1 hknown
  split at h
  next =>
    obtain ⟨_, b₂, -, h⟩ := run_bind.1 h
    cases (run_pure.1 h).1
  next =>
    obtain ⟨i, b₂, hnew, h⟩ := run_bind.1 h
    obtain ⟨heq, rfl⟩ := run_pure.1 h
    obtain ⟨t', ht', -⟩ := run_onTable.1 hnew
    rw [hregister] at ht'
    rw [← Option.some.inj heq, ← (TypeTable.append_of_register ht').2, TypeTable.append]

theorem declareTypes_new {ds : List Declaration} {structs : List PendingStruct} {b b' : Assembly}
    (h : declareTypes ds b = .ok (structs, b')) : ∀ s ∈ structs, (b.table.size : Int) < s.id := by
  induction ds generalizing b structs with
  | nil =>
    obtain ⟨rfl, rfl⟩ := run_pure.1 h
    simp
  | cons d rest ih =>
    have hlater : ∀ {b₁ : Assembly} {structs : List PendingStruct}, b.Grows b₁ →
        declareTypes rest b₁ = .ok (structs, b') → ∀ s ∈ structs, (b.table.size : Int) < s.id := by
      intro b₁ structs hext h s hs
      have hsize := hext.begins.size_le
      exact (Int.ofNat_le.2 hsize).trans_lt (ih h s hs)
    cases d with
    | type name isScalar attributes span =>
      obtain ⟨ops, b₁, hops, h⟩ := run_bind.1 h
      obtain ⟨id, b₂, hnew, h⟩ := run_bind.1 h
      have hnext := builds_declareType name isScalar ops _ _ _ hnew
      exact hlater ((builds_userOps _ _ _ _ _ hops).trans hnext) h
    | struct name attributes fields span =>
      obtain ⟨ops, b₁, hops, h⟩ := run_bind.1 h
      obtain ⟨id, b₂, hnew, h⟩ := run_bind.1 h
      obtain ⟨structs', b₃, hrest, h⟩ := run_bind.1 h
      obtain ⟨heq, rfl⟩ := run_pure.1 h
      have hops := builds_userOps _ _ _ _ _ hops
      have hnext := builds_declareStruct name ops _ _ _ hnew
      have hothers := hlater (hops.trans hnext) hrest
      cases id with
      | none => exact heq ▸ hothers
      | some id =>
        subst heq
        refine List.forall_mem_cons.2 ⟨?_, hothers⟩
        have hid := declareNew_id (fun _ => rfl) hnew
        have hsize := hops.begins.size_le
        change (b.table.size : Int) < (id : Int)
        rw [hid]
        omega
    | function f => exact ih h

theorem begins_of_defineStructs {t : TypeTable} {structs : List PendingStruct} {b b' : Assembly} {r : Unit}
    (h : defineStructs structs b = .ok (r, b')) (hnew : ∀ s ∈ structs, (t.size : Int) < s.id)
    (ht : t.Begins b.table) : t.Begins b'.table := by
  induction structs generalizing b with
  | nil =>
    obtain ⟨-, rfl⟩ := run_pure.1 h
    exact ht
  | cons s rest ih =>
    rw [List.forall_mem_cons] at hnew
    obtain ⟨fields, b₁, hfields, h⟩ := run_bind.1 h
    obtain ⟨u, b₂, hdefine, h⟩ := run_bind.1 h
    obtain ⟨t₁, hop, rfl⟩ := run_onTable.1 hdefine
    obtain ⟨t₂, hset, heq⟩ := bind_eq_ok.1 hop
    obtain ⟨rfl, -⟩ := Prod.mk.inj (pure_eq_ok.1 heq)
    refine ih h hnew.2 ?_
    exact (ht.trans (builds_resolveFields _ _ _ _ _ _ hfields).begins).defineStruct hnew.1 hset

theorem Stages.begins {ds : List Declaration} {fs : List Function} {b b₁ b₂ b' : Assembly}
    {structs : List PendingStruct} (h : Stages ds fs b b₁ b₂ b' structs) : b.table.Begins b'.table := by
  obtain ⟨b₀, hb₀, htypes⟩ := h.basic
  have hsize := hb₀.begins.size_le
  have hnew : ∀ s ∈ structs, (b.table.size : Int) < s.id :=
    fun s hs => (Int.ofNat_le.2 hsize).trans_lt (declareTypes_new htypes s hs)
  have hdeclared := hb₀.begins.trans (builds_declareTypes _ _ _ _ htypes).begins
  exact (begins_of_defineStructs h.fields hnew hdeclared).trans
    (builds_buildFunctions _ _ _ _ _ h.functions).begins

end Text

namespace Program

theorem begins_of_addText {p p' : Program} {text : String} {file : Option String}
    (h : p.addText text file = .ok p') : p.table.Begins p'.table := by
  rw [addText] at h
  split at h
  · rw [← Except.ok.inj h]
    exact .refl _
  · obtain ⟨⟨fs, b⟩, hr, h⟩ := bind_eq_ok.1 h
    rw [← pure_eq_ok.1 h]
    obtain ⟨_, _, _, hstages⟩ := Text.stages_of_buildDeclarations hr
    exact hstages.begins

theorem typedIn {texts : List (String × Option String)} {p : Program} (h : ofTexts texts = .ok p) :
    ∀ f ∈ p.functions, Everywhere (Function.TypedIn · p.table) f := by
  refine (ofTexts_induction (P := fun p => p.table.Built ∧
    ∀ f ∈ p.functions, Everywhere (Function.TypedIn · p.table) f) ⟨.empty, fun f hf => by cases hf⟩ ?_ h).2
  intro p p' text file hp hadd
  have hext := (extends_of_addText hadd).1
  refine ⟨hext.built hp.1, fun f hf => ?_⟩
  rw [addText] at hadd
  split at hadd
  · rw [← Except.ok.inj hadd] at hf ⊢
    exact hp.2 f hf
  · obtain ⟨⟨fs, b⟩, hr, hadd⟩ := bind_eq_ok.1 hadd
    rw [← pure_eq_ok.1 hadd] at hf hext ⊢
    rcases List.mem_append.1 hf with hf | hf
    · exact (hp.2 f hf).imp fun _ hg => hg.mono hext
    · obtain ⟨b₁, b₂, structs, hstages⟩ := Text.stages_of_buildDeclarations hr
      exact Text.buildFunctions_typed hstages.functions (hstages.types.table.built hp.1) f hf

end Program
end MovePlan
