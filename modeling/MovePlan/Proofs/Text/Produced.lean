import MovePlan.Proofs.Answer
import MovePlan.Proofs.Flow.Tidy
import MovePlan.Text.Program

set_option autoImplicit false

namespace MovePlan
namespace Text

section
variable {α β : Type}

theorem run_bind {op : Assemble α} {next : α → Assemble β} {b b' : Assembly} {r : β} :
    (op >>= next) b = .ok (r, b') ↔ ∃ a b₁, op b = .ok (a, b₁) ∧ next a b₁ = .ok (r, b') := by
  change (op b >>= fun p => next p.1 p.2) = .ok (r, b') ↔ _
  rw [bind_eq_ok, Prod.exists]

theorem run_pure {a r : α} {b b' : Assembly} :
    (pure a : Assemble α) b = .ok (r, b') ↔ a = r ∧ b = b' := by
  change Except.ok (a, b) = .ok (r, b') ↔ _
  rw [Except.ok.injEq, Prod.mk.injEq]

theorem run_spanInFile {span r : Span} {b b' : Assembly} :
    spanInFile span b = .ok (r, b') ↔ span.withFile b.file = r ∧ b = b' :=
  run_pure

theorem run_lookupType {name : String} {b b' : Assembly} {r : Option TypeId} :
    lookupType name b = .ok (r, b') ↔ b.table.lookup name = r ∧ b = b' :=
  run_pure

theorem run_reportAs {phase code message : String} {span : Span} {b b' : Assembly} {r : Unit}
    (h : reportAs phase code message span b = .ok (r, b')) :
    b' = { b with diagnostics := b.diagnostics ++
      [{ message := message, code := some code, phase := some phase, span := span.withFile b.file }] } :=
  (run_pure.1 h).2.symm

theorem run_valueOf {n : Numeral} {b b' : Assembly} {r : Int} :
    valueOf n b = .ok (r, b') ↔ (∃ v : ℕ, n.value? = some v ∧ (v : Int) = r) ∧ b = b' := by
  change (optionOr (.longNumeral n.length) n.value? >>= fun v => pure ((v : Int), b)) = .ok (r, b') ↔ _
  simp only [bind_eq_ok, optionOr_eq_ok, pure_eq_ok, Prod.mk.injEq]
  constructor
  · rintro ⟨v, hv, hr, hb⟩
    exact ⟨⟨v, hv, hr⟩, hb⟩
  · rintro ⟨⟨v, hv, hr⟩, hb⟩
    exact ⟨v, hv, hr, hb⟩

theorem run_onTable {op : TypeTable → Except TypeError (TypeTable × α)} {b b' : Assembly} {r : α} :
    onTable op b = .ok (r, b') ↔ ∃ t, op b.table = .ok (t, r) ∧ { b with table := t } = b' := by
  change (liftType (op b.table) >>= fun p => pure (p.2, { b with table := p.1 })) = .ok (r, b') ↔ _
  simp only [bind_eq_ok, liftType_eq_ok, pure_eq_ok, Prod.mk.injEq, Prod.exists]
  constructor
  · rintro ⟨t, a, ht, rfl, hb⟩
    exact ⟨t, ht, hb⟩
  · rintro ⟨t, ht, hb⟩
    exact ⟨t, r, ht, rfl, hb⟩

end

def Yields {α : Type} (good : α → Prop) (op : Assemble α) : Prop :=
  ∀ b a b', op b = .ok (a, b') → good a

section
variable {α β : Type} {good : α → Prop} {good' : β → Prop}

theorem Yields.bind {op : Assemble α} {next : α → Assemble β} (h : Yields good op)
    (hnext : ∀ a, good a → Yields good' (next a)) : Yields good' (op >>= next) := by
  intro b r b' hr
  obtain ⟨a, b₁, hop, hr⟩ := run_bind.1 hr
  exact hnext a (h b a b₁ hop) b₁ r b' hr

theorem Yields.after {op : Assemble α} {next : α → Assemble β} (hnext : ∀ a, Yields good' (next a)) :
    Yields good' (op >>= next) :=
  Yields.bind (fun _ _ _ _ => trivial : Yields (fun _ => True) op) fun a _ => hnext a

theorem Yields.pure {a : α} (h : good a) : Yields good (pure a) := by
  intro b a' b' ha
  exact (run_pure.1 ha).1 ▸ h

theorem Yields.ite {c : Prop} [Decidable c] {x y : Assemble α} (hx : c → Yields good x)
    (hy : ¬ c → Yields good y) : Yields good (if c then x else y) := by
  split
  next h => exact hx h
  next h => exact hy h

end

/-- A function without sites, whose bindings are parameters or captured. -/
structure Unsited (f : Function) : Prop where
  sites : ∀ id, f.sitesAt id = []
  bindings : ∀ {name : String} {b : Binding}, f.binding? name = some b →
    b.name = name ∧ b.region = none ∧ (b.isParam = false → name ∈ f.captures)
  params_nodup : f.params.Nodup
  params_bound : ∀ {name : String}, name ∈ f.params → (f.binding? name).isSome = true

theorem Unsited.declaredOnce {f : Function} (h : Unsited f) : f.DeclaredOnce := by
  refine .of_no_sites (fun s hs => ?_) h.bindings h.params_nodup h.params_bound
  obtain ⟨id, hs⟩ := Function.mem_allSites.1 hs
  rw [h.sites] at hs
  simp at hs

theorem Unsited.put {f : Function} (h : Unsited f) {name : String} {x : Binding}
    (hregion : x.region = none) (hx : x.isParam = false → name ∈ f.captures) {g : Function}
    (hblocks : g.blocks = f.blocks) (hcap : g.captures = f.captures)
    (hbindings : g.bindings = f.bindings.put name x) (hname : x.name = name) (hnodup : g.params.Nodup)
    (hparams : ∀ n ∈ g.params, n ∈ f.params ∨ n = name) : Unsited g := by
  refine ⟨fun id => ?_, fun {n b} hb => ?_, hnodup, fun {n} hn => ?_⟩
  · rw [Function.sitesAt, Function.block?, hblocks]
    exact h.sites id
  · rw [Function.binding?, hbindings, OrderedMap.get?_put] at hb
    rw [hcap]
    split at hb
    next heq =>
      rw [Option.some.injEq] at hb
      subst hb
      exact ⟨heq ▸ hname, hregion, heq ▸ hx⟩
    next => exact h.bindings hb
  · rw [Function.binding?, hbindings, OrderedMap.get?_put]
    split
    next => rfl
    next hne => exact h.params_bound ((hparams n hn).resolve_right hne)

theorem buildCaptures_yields (parent : Option Function) (span : Span) {names : List String} {f : Function}
    (h : Unsited f) (hnames : ∀ n ∈ names, n ∈ f.captures) :
    Yields Unsited (buildCaptures parent span names f) := by
  induction names generalizing f with
  | nil => exact Yields.pure h
  | cons name rest ih =>
    have hrest : ∀ type, Yields Unsited (buildCaptures parent span rest
        { f with bindings := f.bindings.put name { name := name, type := type, captured := true } }) := by
      intro type
      refine ih (h.put rfl (fun _ => hnames name List.mem_cons_self) rfl rfl rfl rfl h.params_nodup
        fun _ hn => .inl hn) ?_
      exact fun n hn => hnames n (List.mem_cons_of_mem _ hn)
    rw [buildCaptures]
    split
    · exact Yields.after hrest
    · exact Yields.after fun _ => Yields.after hrest

theorem buildParam_yields {index : ℕ} {p : Parameter} {f : Function} (h : Unsited f) :
    Yields Unsited (buildParam index p f) := by
  refine Yields.after fun type => Yields.ite (fun _ => Yields.after fun _ => Yields.pure h)
    fun hfresh => ?_
  rw [OrderedMap.contains, Option.not_isSome_iff_eq_none] at hfresh
  have hput : ∀ span forwards, Unsited { f with
      bindings := f.bindings.put p.name.text
        { name := p.name.text, type := type, isParam := true, mode := p.mode.getD .value, span := span }
      params := f.params ++ [p.name.text]
      forwards := forwards } :=
    fun _ _ => h.put rfl (fun hparam => by cases hparam) rfl rfl rfl rfl
      (Function.nodup_params_append h.params_nodup h.params_bound hfresh) fun _ hn => by simpa using hn
  refine Yields.ite (fun _ => ?_) fun _ => ?_
  · exact Yields.after fun _ => Yields.after fun span => Yields.pure (hput span _)
  · exact Yields.after fun span => Yields.pure (hput span _)

theorem buildParams_yields {index : ℕ} {ps : List Parameter} {f : Function} (h : Unsited f) :
    Yields Unsited (buildParams index ps f) := by
  induction ps generalizing index f with
  | nil => exact Yields.pure h
  | cons p rest ih => exact Yields.bind (buildParam_yields h) fun g hg => ih hg

theorem openBlocks_yields {ds : List BlockDecl} {f : Function} {labels : List (String × BlockId)}
    (h : Unsited f) : Yields (fun r => Unsited r.1) (openBlocks ds f labels) := by
  induction ds generalizing f labels with
  | nil => exact Yields.pure h
  | cons d rest ih =>
    refine Yields.after fun id => ?_
    split
    · exact Yields.after fun _ => ih h
    · have hput : ∀ blk : Block, blk.sites = [] → Unsited { f with blocks := f.blocks.put id blk } := by
        intro blk hblk
        refine ⟨fun x => ?_, h.bindings, h.params_nodup, h.params_bound⟩
        rw [Function.sitesAt_putBlock]
        split
        · exact hblk
        · exact h.sites x
      have hrest : ∀ labels', Yields (fun r => Unsited r.1) (do
          let span ← spanInFile d.span
          let r ← openBlocks rest
            { f with blocks := f.blocks.put id { label := d.label.map Name.text, span := span } } labels'
          return (r.1, r.2.1, (id, d.body) :: r.2.2)) := fun labels' =>
        Yields.after fun span => Yields.bind (ih (hput _ rfl)) fun r hr => Yields.pure hr
      split
      · exact hrest _
      · split
        · exact Yields.after fun _ => hrest _
        · exact hrest _

/-- A site that is added is an access, or it declares a local that comes with it. -/
inductive Adds (f : Function) : Function × Option Site → Prop
  | access (site : Option Site) (hk : ∀ s, site = some s → s.kind ≠ .decl) : Adds f (f, site)
  | declare {name : String} {x : Binding} {s : Site} (hfresh : f.binding? name = none)
      (hname : x.name = name) (hregion : x.region = none) (hparam : x.isParam = false)
      (hs : s.binding = some name) (hk : s.kind = .decl) :
      Adds f ({ f with bindings := f.bindings.put name x }, some s)

theorem buildSite_yields (f : Function) (id : ℕ) (block : BlockId) (index : ℕ) (span : Span)
    (s : SiteExpr) : Yields (Adds f) (buildSite f id block index span s) := by
  have haccess : ∀ kind place, kind ≠ .decl →
      Yields (Adds f) (buildSite.access f id block index span kind place) := by
    intro kind place hk
    refine Yields.after fun span => Yields.pure (.access _ fun s hs => ?_)
    rw [Option.some.injEq] at hs
    exact hs ▸ hk
  cases s with
  | decl name type =>
    refine Yields.after fun t => ?_
    split
    next => exact Yields.after fun _ => Yields.pure (.access none fun s hs => by cases hs)
    next hfresh =>
      refine Yields.after fun span => Yields.pure (.declare ?_ rfl rfl rfl rfl rfl)
      rwa [OrderedMap.contains, Option.not_isSome_iff_eq_none] at hfresh
  | temp type target =>
    refine Yields.after fun t => Yields.after fun target => Yields.after fun span => ?_
    refine Yields.pure (.access _ fun s hs => ?_)
    rw [Option.some.injEq] at hs
    rw [← hs]
    simp
  | move flags place target =>
    refine Yields.after fun target => Yields.after fun span => ?_
    refine Yields.pure (.access _ fun s hs => ?_)
    rw [Option.some.injEq] at hs
    rw [← hs]
    simp
  | read place => exact haccess .read place (by simp)
  | write place => exact haccess .write place (by simp)
  | addr place => exact haccess .addrOf place (by simp)

def withBlock (f : Function) (id : BlockId) (blk : Block) : Function :=
  { f with blocks := f.blocks.put id blk }

theorem Adds.declaredOnce {f : Function} {r : Function × Option Site} (h : Adds f r) {id : BlockId}
    {blk : Block} (hf : (withBlock f id blk).DeclaredOnce) :
    (withBlock r.1 id { blk with sites := blk.sites ++ r.2.toList }).DeclaredOnce := by
  have hmem : ∀ {s : Site},
      s ∈ (withBlock r.1 id { blk with sites := blk.sites ++ r.2.toList }).allSites ↔
        s ∈ (withBlock f id blk).allSites ∨ s ∈ r.2.toList := by
    intro s
    have hsites : ∀ x, (withBlock r.1 id { blk with sites := blk.sites ++ r.2.toList }).sitesAt x =
        if x = id then (withBlock f id blk).sitesAt id ++ r.2.toList else (withBlock f id blk).sitesAt x := by
      intro x
      rw [withBlock, withBlock, Function.sitesAt_putBlock, Function.sitesAt_putBlock,
        Function.sitesAt_putBlock, if_pos rfl]
      split
      · rfl
      · cases h <;> rfl
    exact Function.mem_allSites_append hsites
  cases h with
  | access site hk =>
    refine hf.congr_sites rfl rfl rfl fun {s} hs => ?_
    rw [hmem, or_iff_left_iff_imp]
    intro hsite
    exact absurd hs (hk s (Option.mem_toList.1 hsite))
  | @declare name x s hfresh hname hregion hparam hs hk =>
    have hlist : (withBlock f id blk).params ++ (if x.isParam then [name] else []) = f.params := by
      rw [hparam]
      exact List.append_nil _
    have hdecl : ∀ d ∈ some s, d.binding = some name ∧ d.kind = .decl := fun d hd =>
      Option.mem_some.1 hd ▸ ⟨hs, hk⟩
    refine hf.put rfl hfresh hname hregion (fun n => OrderedMap.get?_put _ _ _ _) hlist.symm hdecl
      (by rw [hparam]; rfl) fun {t} => ?_
    rw [hmem, Option.mem_toList]
    rfl

theorem buildStatements_yields (id : BlockId) {statements : List Statement} {body : Body} {blk : Block}
    (h : (withBlock body.function id blk).DeclaredOnce) :
    Yields (fun r => (withBlock r.1.function id r.2).DeclaredOnce)
      (buildStatements id statements body blk) := by
  have hedges : ∀ {body : Body} {blk : Block} (edges : List Edge),
      (withBlock body.function id blk).DeclaredOnce →
      (withBlock body.function id { blk with edges := edges }).DeclaredOnce := by
    intro body blk edges h
    refine h.congr_sites rfl rfl rfl fun _ => Function.mem_allSites_congr fun x => ?_
    rw [withBlock, withBlock, Function.sitesAt_putBlock, Function.sitesAt_putBlock]
  induction statements generalizing body blk with
  | nil => exact Yields.pure h
  | cons st rest ih =>
    cases st with
    | ret => exact ih h
    | edge word dst => exact Yields.after fun dst => ih (hedges _ h)
    | jump label => exact ih (hedges _ h)
    | site s span =>
      exact Yields.bind (buildSite_yields _ _ _ _ _ _) fun r hr => ih (hr.declaredOnce h)

theorem fillBlocks_yields {kept : List (BlockId × List Statement)} {body : Body}
    (h : body.function.DeclaredOnce) :
    Yields (fun r => r.function.DeclaredOnce) (fillBlocks kept body) := by
  induction kept generalizing body with
  | nil => exact Yields.pure h
  | cons e rest ih =>
    obtain ⟨id, statements⟩ := e
    have hstart : (withBlock body.function id ((body.function.block? id).getD {})).DeclaredOnce := by
      refine h.congr_sites rfl rfl rfl fun _ => Function.mem_allSites_congr fun x => ?_
      rw [withBlock, Function.sitesAt_putBlock, Function.sites_getD_block]
      split
      next heq => rw [heq]
      next => rfl
    exact Yields.bind (buildStatements_yields id hstart) fun r hr => ih hr

theorem buildScopes_yields {ds : List ScopeDecl} {f : Function} (h : f.DeclaredOnce) :
    Yields Function.DeclaredOnce (buildScopes ds f) := by
  induction ds generalizing f with
  | nil => exact Yields.pure h
  | cons d rest ih =>
    rw [buildScopes]
    split
    next => exact Yields.after fun _ => ih h
    next b hb =>
      split
      next => exact Yields.after fun _ => ih h
      next hlocal =>
        have hparam : b.isParam = false := by
          rw [Bool.or_eq_true, not_or, Bool.not_eq_true] at hlocal
          exact hlocal.1
        refine Yields.after fun region => ih (h.congr rfl rfl
          (fun _ => Function.mem_allSites_congr fun _ => rfl) (fun {n x} hx => ?_) fun {n y} hy => ?_)
        · have hget := (OrderedMap.get?_put f.bindings d.name.text n { b with region := some region }).symm.trans hx
          split at hget
          next heq =>
            rw [Option.some.injEq] at hget
            subst hget heq
            exact ⟨b, hb, rfl, rfl, fun htrue => by rw [hparam] at htrue; cases htrue⟩
          next => exact ⟨x, hget, rfl, rfl, fun _ => rfl⟩
        · have hget := OrderedMap.get?_put f.bindings d.name.text n { b with region := some region }
          split at hget
          next heq =>
            rw [heq, hb, Option.some.injEq] at hy
            exact ⟨_, hget, by rw [← hy]⟩
          next => exact ⟨y, hget.trans hy, rfl⟩

theorem buildBody_yields (parent : Option Function) (name : Name) (params : List Parameter)
    (captures : List String) (body : Members) (span : Span) :
    Yields Function.DeclaredOnce (buildBody parent name params captures body span) := by
  refine Yields.after fun ownSpan => ?_
  have hstart : Unsited { name := name.text, span := ownSpan, captures := captures } :=
    ⟨fun _ => rfl, fun hb => (by cases hb), List.nodup_nil, fun hn => by cases hn⟩
  refine Yields.bind (buildCaptures_yields parent span hstart fun _ hn => hn) fun f hf => ?_
  refine Yields.bind (buildParams_yields hf) fun f hf => ?_
  refine Yields.bind (openBlocks_yields hf) fun r hr => ?_
  obtain ⟨f, labels, kept⟩ := r
  refine Yields.bind (fillBlocks_yields ?_) fun filled hfilled => buildScopes_yields hfilled
  cases kept with
  | nil => exact hr.declaredOnce
  | cons first rest =>
    exact hr.declaredOnce.congr_sites rfl rfl rfl fun _ => Function.mem_allSites_congr fun _ => rfl

mutual

theorem buildFunction_yields (parent : Option Function) (d : FunctionDecl) :
    Yields (Everywhere Function.DeclaredOnce) (buildFunction parent d) := by
  cases d with
  | mk name params captures body span =>
    refine Yields.bind (buildBody_yields parent name params captures body span) fun f hf => ?_
    refine Yields.bind (buildNested_yields f body) fun nested hnested => Yields.pure (.mk ?_ hnested)
    exact hf.congr_sites rfl rfl rfl fun _ => Function.mem_allSites_congr fun _ => rfl

theorem buildNested_yields (parent : Function) (body : Members) :
    Yields (fun fs => ∀ g ∈ fs, Everywhere Function.DeclaredOnce g) (buildNested parent body) := by
  cases body with
  | nil => exact Yields.pure (by simp)
  | block b rest => exact buildNested_yields parent rest
  | scope s rest => exact buildNested_yields parent rest
  | nested f rest =>
    refine Yields.bind (buildFunction_yields (some parent) f) fun inner hinner => ?_
    refine Yields.bind (buildNested_yields parent rest) fun others hothers => Yields.pure ?_
    exact List.forall_mem_cons.2 ⟨hinner, hothers⟩

end

theorem buildFunctions_yields (seen : List String) (ds : List Declaration) :
    Yields (fun fs => ∀ g ∈ fs, Everywhere Function.DeclaredOnce g) (buildFunctions seen ds) := by
  induction ds generalizing seen with
  | nil => exact Yields.pure (by simp)
  | cons d rest ih =>
    cases d with
    | type name isScalar attributes span => exact ih seen
    | struct name attributes fields span => exact ih seen
    | function d =>
      refine Yields.bind (buildFunction_yields none d) fun f hf => ?_
      refine Yields.ite (fun _ => Yields.after fun _ => ih seen) fun _ => ?_
      exact Yields.bind (ih _) fun others hothers => Yields.pure (List.forall_mem_cons.2 ⟨hf, hothers⟩)

theorem buildDeclarations_yields (ds : List Declaration) :
    Yields (fun fs => ∀ g ∈ fs, Everywhere Function.DeclaredOnce g) (buildDeclarations ds) := by
  refine Yields.after fun _ => Yields.after fun _ => Yields.after fun structs => ?_
  exact Yields.after fun _ => buildFunctions_yields [] ds

end Text

namespace Program

theorem functions_of_addText {p p' : Program} {text : String} {file : Option String}
    (h : p.addText text file = .ok p') : p'.functions = p.functions ∨
      ∃ ds fs b b', Text.readText text = .ok ds ∧ Text.buildDeclarations ds b = .ok (fs, b') ∧
        p'.functions = p.functions ++ fs := by
  rw [addText] at h
  split at h
  next =>
    rw [Except.ok.injEq] at h
    exact .inl (h ▸ rfl)
  next ds hds =>
    obtain ⟨⟨fs, b'⟩, hr, h⟩ := bind_eq_ok.1 h
    rw [pure_eq_ok] at h
    exact .inr ⟨ds, fs, _, b', hds, hr, h ▸ rfl⟩

/-- What every text of several keeps holds of their program. -/
theorem ofTexts_induction_mem {P : Program → Prop} {texts : List (String × Option String)} (start : P {})
    (step : ∀ {p p' : Program} {text : String} {file : Option String}, (text, file) ∈ texts → P p →
      p.addText text file = .ok p' → P p')
    {p : Program} (h : ofTexts texts = .ok p) : P p := by
  have main : ∀ (rest : List (String × Option String)) (p₀ : Program), rest ⊆ texts → P p₀ →
      rest.foldlM (fun p t => p.addText t.1 t.2) p₀ = .ok p → P p := by
    intro rest
    induction rest with
    | nil =>
      intro p₀ _ hp₀ h
      rw [List.foldlM_nil, pure_eq_ok] at h
      exact h ▸ hp₀
    | cons t rest ih =>
      intro p₀ hsub hp₀ h
      rw [List.foldlM_cons] at h
      obtain ⟨p₁, hp₁, h⟩ := bind_eq_ok.1 h
      obtain ⟨ht, hsub⟩ := List.cons_subset.1 hsub
      exact ih p₁ hsub (step ht hp₀ hp₁) h
  exact main texts {} (List.Subset.refl _) start h

theorem ofTexts_induction {P : Program → Prop} (start : P {})
    (step : ∀ {p p' : Program} {text : String} {file : Option String}, P p →
      p.addText text file = .ok p' → P p')
    {texts : List (String × Option String)} {p : Program} (h : ofTexts texts = .ok p) : P p :=
  ofTexts_induction_mem start (fun _ => step) h

theorem declaredOnce {texts : List (String × Option String)} {p : Program} (h : ofTexts texts = .ok p) :
    ∀ f ∈ p.functions, Everywhere Function.DeclaredOnce f := by
  refine ofTexts_induction (P := fun p => ∀ f ∈ p.functions, Everywhere Function.DeclaredOnce f)
    (fun f hf => by cases hf) (fun {p p' _ _} hp hadd f hf => ?_) h
  rcases functions_of_addText hadd with heq | ⟨ds, fs, b, b', _, hfs, heq⟩
  · exact hp f (heq ▸ hf)
  · rw [heq] at hf
    exact (List.mem_append.1 hf).elim (hp f) (Text.buildDeclarations_yields ds b fs b' hfs f)

end Program

/-- The functions of a text, of a script, and those nested in them. -/
inductive Produced : Function → Prop
  | text {texts : List (String × Option String)} {p : Program} {f : Function}
      (h : Program.ofTexts texts = .ok p) (hf : f ∈ p.functions) : Produced f
  | script (table : TypeTable) (name : String) (captures : OrderedMap String TypeId)
      (steps : List Script.Step) : Produced (Script.run table name captures steps).function
  | nested {f g : Function} (h : Produced f) (hg : g ∈ f.nested) : Produced g

/-- However a function was made, it declares every local once. -/
theorem Produced.declaredOnce {f : Function} (h : Produced f) : f.DeclaredOnce := by
  have main : Everywhere Function.DeclaredOnce f := by
    induction h with
    | text h hf => exact Program.declaredOnce h _ hf
    | script table name captures steps => exact Script.declaredOnce table name captures steps
    | nested _ hg ih => exact ih.inside hg
  exact main.here

end MovePlan
