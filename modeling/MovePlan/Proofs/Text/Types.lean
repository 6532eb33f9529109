import MovePlan.Proofs.Text.Produced
import MovePlan.Proofs.Types.Grown

set_option autoImplicit false

namespace MovePlan
namespace Text
variable {α β : Type}

/-- What steps leave of the table and of the diagnostics. -/
structure Assembly.Extends (b b' : Assembly) : Prop where
  table : b.table.Extends b'.table
  diagnostics : b.diagnostics <+: b'.diagnostics

theorem Assembly.Extends.trans {b b' b'' : Assembly} (h : b.Extends b') (h' : b'.Extends b'') :
    b.Extends b'' :=
  ⟨h.table.trans h'.table, h.diagnostics.trans h'.diagnostics⟩

structure Assembly.Grows (b b' : Assembly) : Prop extends b.Extends b' where
  begins : b.table.Begins b'.table

theorem Assembly.Grows.trans {b b' b'' : Assembly} (h : b.Grows b') (h' : b'.Grows b'') : b.Grows b'' :=
  ⟨h.toExtends.trans h'.toExtends, h.begins.trans h'.begins⟩

def Builds (op : Assemble α) : Prop :=
  ∀ b a b', op b = .ok (a, b') → b.Grows b'

namespace Builds

theorem bind {op : Assemble α} {next : α → Assemble β} (h : Builds op) (hnext : ∀ a, Builds (next a)) :
    Builds (op >>= next) := by
  intro b r b' hr
  obtain ⟨a, b₁, hop, hr⟩ := run_bind.1 hr
  exact (h b a b₁ hop).trans (hnext a b₁ r b' hr)

theorem of_eq {op : Assemble α} (h : ∀ b a b', op b = .ok (a, b') → b = b') : Builds op := by
  intro b a b' hop
  rw [h b a b' hop]
  exact ⟨⟨.refl _, List.prefix_rfl⟩, .refl _⟩

theorem pure (a : α) : Builds (pure a) :=
  of_eq fun _ _ _ h => (run_pure.1 h).2

theorem reportAs (phase code message : String) (span : Span) :
    Builds (reportAs phase code message span) := by
  intro b a b' h
  rw [run_reportAs h]
  exact ⟨⟨.refl _, List.prefix_append _ _⟩, .refl _⟩

theorem report (code message : String) (span : Span) : Builds (report code message span) :=
  reportAs _ code message span

theorem spanInFile (span : Span) : Builds (spanInFile span) :=
  of_eq fun _ _ _ h => (run_spanInFile.1 h).2

theorem lookupType (name : String) : Builds (lookupType name) :=
  of_eq fun _ _ _ h => (run_lookupType.1 h).2

theorem get : Builds (MonadState.get : Assemble Assembly) :=
  of_eq fun b _ _ h => (run_pure (a := b) |>.1 h).2

theorem valueOf (n : Numeral) : Builds (valueOf n) :=
  of_eq fun _ _ _ h => (run_valueOf.1 h).2

theorem onTable {op : TypeTable → Except TypeError (TypeTable × α)}
    (hop : ∀ t t' a, op t = .ok (t', a) → (∃ d, t.Adds t' d) ∧ (t.Built → t'.Built)) :
    Builds (onTable op) := by
  intro b a b' h
  obtain ⟨t, ht, rfl⟩ := run_onTable.1 h
  obtain ⟨⟨d, hd⟩, hbuilt⟩ := hop b.table t a ht
  exact ⟨⟨.of_adds hd hbuilt, List.prefix_rfl⟩, .of_adds hd⟩

theorem mapM {g : α → Assemble β} (hg : ∀ a, Builds (g a)) (xs : List α) : Builds (xs.mapM g) := by
  induction xs with
  | nil => exact pure []
  | cons x xs ih =>
    rw [List.mapM_cons]
    exact (hg x).bind fun _ => ih.bind fun _ => pure _

theorem ite {c : Prop} [Decidable c] {x y : Assemble α} (hx : Builds x) (hy : Builds y) :
    Builds (if c then x else y) := by
  split
  · exact hx
  · exact hy

end Builds

theorem builds_ensureUnknown : Builds (onTable TypeTable.ensureUnknown) :=
  .onTable fun _ _ _ h => ⟨⟨_, TypeTable.adds_of_ensureUnknown h⟩, (.ensureUnknown · h)⟩

theorem builds_declareNew (name : Name) {register : TypeTable → Except TypeError (TypeTable × TypeId)}
    (h : ∀ t t' id, register t = .ok (t', id) → (∃ d, t.Adds t' d) ∧ (t.Built → t'.Built)) :
    Builds (declareNew name register) := by
  refine (Builds.lookupType _).bind fun known => .ite ?_ ?_
  · exact (Builds.report _ _ _).bind fun _ => .pure none
  · exact (Builds.onTable h).bind fun id => .pure (some id)

theorem builds_declareType (name : Name) (isScalar : Bool) (ops : UserOps) :
    Builds (declareNew name fun t =>
      if isScalar then t.newScalar name.text else t.newForeign name.text ops) := by
  refine builds_declareNew name fun t t' id h => ?_
  split at h
  · exact ⟨⟨_, TypeTable.adds_of_register h⟩, (.newScalar · h)⟩
  · exact ⟨⟨_, TypeTable.adds_of_register h⟩, (.newForeign · h)⟩

theorem builds_declareStruct (name : Name) (ops : UserOps) :
    Builds (declareNew name fun t => t.declareStruct name.text ops) :=
  builds_declareNew name fun _ _ _ h => ⟨⟨_, TypeTable.adds_of_register h⟩, (.declareStruct · h)⟩

theorem builds_userOps (attributes : List TypeAttribute) (span : Span) : Builds (userOps attributes span) :=
  Builds.get.bind fun _ => .pure _

theorem builds_declareTypes (ds : List Declaration) : Builds (declareTypes ds) := by
  induction ds with
  | nil => exact .pure []
  | cons d rest ih =>
    cases d with
    | type name isScalar attributes span =>
      exact (builds_userOps _ _).bind fun ops => (builds_declareType name isScalar ops).bind fun _ => ih
    | struct name attributes fields span =>
      exact (builds_userOps _ _).bind fun ops => (builds_declareStruct name ops).bind fun id =>
        ih.bind fun structs => .pure _
    | function f => exact ih

theorem builds_resolveType (e : TypeExpr) : Builds (resolveType e) := by
  induction e with
  | named name =>
    refine (Builds.lookupType _).bind fun known => ?_
    split
    · exact .pure _
    · exact (Builds.reportAs _ _ _ _).bind fun _ => builds_ensureUnknown
  | pointer inner ih =>
    refine ih.bind fun id => .onTable fun t t' _ h => ?_
    obtain ⟨_, hadds⟩ := TypeTable.adds_of_shared h
    exact ⟨⟨_, hadds⟩, (.newPointer · h)⟩
  | reference isMut inner ih =>
    refine ih.bind fun id => .onTable fun t t' _ h => ?_
    obtain ⟨_, hadds⟩ := TypeTable.adds_of_shared h
    exact ⟨⟨_, hadds⟩, (.newReference · h)⟩

/-- What a type stands for is in the table, unless its name is not known. This is reported. -/
theorem resolveType_cases {e : TypeExpr} {b b' : Assembly} {id : TypeId}
    (h : resolveType e b = .ok (id, b')) : b'.table.contains id = true ∨ ∃ message span,
      (reportAs "typemodel" "E_UNKNOWN_TYPE" message span >>= fun _ => onTable TypeTable.ensureUnknown) b =
        .ok (id, b') := by
  cases e with
  | named name =>
    obtain ⟨known, b₁, hknown, h⟩ := run_bind.1 h
    obtain ⟨hlookup, rfl⟩ := run_lookupType.1 hknown
    cases known with
    | some id =>
      obtain ⟨rfl, rfl⟩ := run_pure.1 h
      exact .inl (TypeTable.contains_of_lookup hlookup)
    | none => exact .inr ⟨_, _, h⟩
  | pointer inner =>
    obtain ⟨id, b₁, -, h⟩ := run_bind.1 h
    obtain ⟨t', ht', rfl⟩ := run_onTable.1 h
    exact .inl (TypeTable.contains_of_shared ht')
  | reference isMut inner =>
    obtain ⟨id, b₁, -, h⟩ := run_bind.1 h
    obtain ⟨t', ht', rfl⟩ := run_onTable.1 h
    exact .inl (TypeTable.contains_of_shared ht')

theorem builds_resolveFields (struct : String) (seen : List String) (fields : List FieldDecl) :
    Builds (resolveFields struct seen fields) := by
  induction fields generalizing seen with
  | nil => exact .pure []
  | cons f fs ih =>
    apply Builds.ite
    · exact (Builds.report _ _ _).bind fun _ => ih seen
    · exact (builds_resolveType f.type).bind fun _ => (ih _).bind fun _ => .pure _

theorem extends_of_defineStructs {structs : List PendingStruct} {b b' : Assembly} {r : Unit}
    (h : defineStructs structs b = .ok (r, b')) : b.Extends b' := by
  induction structs generalizing b with
  | nil => exact (Builds.pure () b r b' h).toExtends
  | cons s rest ih =>
    obtain ⟨fields, b₁, hfields, h⟩ := run_bind.1 h
    obtain ⟨u, b₂, hdefine, h⟩ := run_bind.1 h
    obtain ⟨t, hop, rfl⟩ := run_onTable.1 hdefine
    obtain ⟨t', ht, heq⟩ := bind_eq_ok.1 hop
    obtain ⟨rfl, -⟩ := Prod.mk.inj (pure_eq_ok.1 heq)
    have hsize : b₁.table.size ≤ t'.size := (TypeTable.defineStruct_eq_ok ht).1.ge
    have hset : b₁.Extends { b₁ with table := t' } :=
      ⟨⟨(.defineStruct · ht), TypeTable.contains_of_size_le hsize⟩, List.prefix_rfl⟩
    exact (builds_resolveFields _ _ _ _ _ _ hfields).toExtends.trans (hset.trans (ih h))

theorem builds_buildTarget (e : TargetExpr) : Builds (buildTarget e) := by
  cases e with
  | call callee index flags => exact (Builds.valueOf index).bind fun _ => .pure _
  | result flags => exact .pure _
  | assign dest => exact .pure _

theorem builds_buildSite (f : Function) (id : ℕ) (block : BlockId) (index : ℕ) (span : Span)
    (s : SiteExpr) : Builds (buildSite f id block index span s) := by
  cases s with
  | decl name type =>
    refine (builds_resolveType type).bind fun _ => .ite ?_ ?_
    · exact (Builds.report _ _ _).bind fun _ => .pure _
    · exact (Builds.spanInFile _).bind fun _ => .pure _
  | temp type target =>
    exact (builds_resolveType type).bind fun _ => (builds_buildTarget target).bind fun _ =>
      (Builds.spanInFile _).bind fun _ => .pure _
  | move flags place target =>
    exact (builds_buildTarget target).bind fun _ => (Builds.spanInFile _).bind fun _ => .pure _
  | read place => exact (Builds.spanInFile _).bind fun _ => .pure _
  | write place => exact (Builds.spanInFile _).bind fun _ => .pure _
  | addr place => exact (Builds.spanInFile _).bind fun _ => .pure _

theorem builds_buildStatements (id : BlockId) (statements : List Statement) (body : Body) (blk : Block) :
    Builds (buildStatements id statements body blk) := by
  induction statements generalizing body blk with
  | nil => exact .pure _
  | cons st rest ih =>
    cases st with
    | ret => exact ih _ _
    | edge word dst => exact (Builds.valueOf dst).bind fun _ => ih _ _
    | jump label => exact ih _ _
    | site s span => exact (builds_buildSite _ _ _ _ _ _).bind fun _ => ih _ _

theorem builds_buildCaptures (parent : Option Function) (span : Span) (names : List String) (f : Function) :
    Builds (buildCaptures parent span names f) := by
  induction names generalizing f with
  | nil => exact .pure f
  | cons name rest ih =>
    rw [buildCaptures]
    split
    · exact ih _
    · exact (Builds.report _ _ _).bind fun _ => builds_ensureUnknown.bind fun _ => ih _

theorem builds_buildParam (index : ℕ) (p : Parameter) (f : Function) : Builds (buildParam index p f) := by
  refine (builds_resolveType p.type).bind fun _ => .ite ?_ (.ite ?_ ?_)
  · exact (Builds.report _ _ _).bind fun _ => .pure _
  · exact (Builds.report _ _ _).bind fun _ => (Builds.spanInFile _).bind fun _ => .pure _
  · exact (Builds.spanInFile _).bind fun _ => .pure _

theorem builds_buildParams (index : ℕ) (ps : List Parameter) (f : Function) :
    Builds (buildParams index ps f) := by
  induction ps generalizing index f with
  | nil => exact .pure f
  | cons p rest ih => exact (builds_buildParam index p f).bind fun _ => ih _ _

theorem builds_openBlocks (ds : List BlockDecl) (f : Function) (labels : List (String × BlockId)) :
    Builds (openBlocks ds f labels) := by
  induction ds generalizing f labels with
  | nil => exact .pure _
  | cons d rest ih =>
    refine (Builds.valueOf _).bind fun id => .ite ?_ ?_
    · exact (Builds.report _ _ _).bind fun _ => ih _ _
    · have hrest : ∀ labels', Builds (do
          let span ← spanInFile d.span
          let r ← openBlocks rest
            { f with blocks := f.blocks.put id { label := d.label.map Name.text, span := span } } labels'
          return (r.1, r.2.1, (id, d.body) :: r.2.2)) := fun labels' =>
        (Builds.spanInFile _).bind fun _ => (ih _ _).bind fun _ => .pure _
      split
      · exact hrest _
      · apply Builds.ite
        · exact (Builds.report _ _ _).bind fun _ => hrest _
        · exact hrest _

theorem builds_fillBlocks (kept : List (BlockId × List Statement)) (body : Body) :
    Builds (fillBlocks kept body) := by
  induction kept generalizing body with
  | nil => exact .pure body
  | cons e rest ih => exact (builds_buildStatements _ _ _ _).bind fun _ => ih _

theorem builds_buildScopes (ds : List ScopeDecl) (f : Function) : Builds (buildScopes ds f) := by
  induction ds generalizing f with
  | nil => exact .pure f
  | cons d rest ih =>
    rw [buildScopes]
    split
    · exact (Builds.report _ _ _).bind fun _ => ih f
    · apply Builds.ite
      · exact (Builds.report _ _ _).bind fun _ => ih f
      · exact (Builds.mapM Builds.valueOf _).bind fun _ => ih _

theorem builds_buildBody (parent : Option Function) (name : Name) (params : List Parameter)
    (captures : List String) (body : Members) (span : Span) :
    Builds (buildBody parent name params captures body span) := by
  refine (Builds.spanInFile _).bind fun _ => (builds_buildCaptures _ _ _ _).bind fun _ => ?_
  refine (builds_buildParams _ _ _).bind fun _ => (builds_openBlocks _ _ _).bind fun _ => ?_
  exact (builds_fillBlocks _ _).bind fun _ => builds_buildScopes _ _

mutual

theorem builds_buildFunction (parent : Option Function) (d : FunctionDecl) :
    Builds (buildFunction parent d) := by
  cases d with
  | mk name params captures body span =>
    refine (builds_buildBody _ _ _ _ _ _).bind fun f => ?_
    exact (builds_buildNested f body).bind fun _ => .pure _

theorem builds_buildNested (parent : Function) (body : Members) : Builds (buildNested parent body) := by
  cases body with
  | nil => exact .pure []
  | block b rest => exact builds_buildNested parent rest
  | scope s rest => exact builds_buildNested parent rest
  | nested f rest =>
    refine (builds_buildFunction (some parent) f).bind fun _ => ?_
    exact (builds_buildNested parent rest).bind fun _ => .pure _

end

theorem builds_buildFunctions (seen : List String) (ds : List Declaration) :
    Builds (buildFunctions seen ds) := by
  induction ds generalizing seen with
  | nil => exact .pure []
  | cons d rest ih =>
    cases d with
    | type name isScalar attributes span => exact ih seen
    | struct name attributes fields span => exact ih seen
    | function d =>
      refine (builds_buildFunction none d).bind fun f => .ite ?_ ?_
      · exact (Builds.report _ _ _).bind fun _ => ih seen
      · exact (ih _).bind fun _ => .pure _

theorem builds_ensureNamed (name : String) {ensure : TypeTable → Except TypeError (TypeTable × TypeId)}
    (h : ∀ t t' id, ensure t = .ok (t', id) → (∃ d, t.Adds t' d) ∧ (t.Built → t'.Built)) :
    Builds (ensureNamed name ensure) := by
  refine (Builds.lookupType _).bind fun _ => .ite ?_ (.pure ())
  exact (Builds.onTable h).bind fun _ => .pure ()

theorem builds_ensureInt : Builds (ensureNamed "Int" TypeTable.ensureInt) :=
  builds_ensureNamed _ fun _ _ _ h => ⟨⟨_, TypeTable.adds_of_ensureInt h⟩, (.ensureInt · h)⟩

theorem builds_ensureBool : Builds (ensureNamed "Bool" TypeTable.ensureBool) :=
  builds_ensureNamed _ fun _ _ _ h => ⟨⟨_, TypeTable.adds_of_ensureBool h⟩, (.ensureBool · h)⟩

/-- A text is assembled in three stages, of which the second gives the new structs their fields. -/
structure Stages (ds : List Declaration) (fs : List Function) (b b₁ b₂ b' : Assembly)
    (structs : List PendingStruct) : Prop where
  basic : ∃ b₀, b.Grows b₀ ∧ declareTypes ds b₀ = .ok (structs, b₁)
  fields : defineStructs structs b₁ = .ok ((), b₂)
  functions : buildFunctions [] ds b₂ = .ok (fs, b')

theorem stages_of_buildDeclarations {ds : List Declaration} {fs : List Function} {b b' : Assembly}
    (h : buildDeclarations ds b = .ok (fs, b')) : ∃ b₁ b₂ structs, Stages ds fs b b₁ b₂ b' structs := by
  obtain ⟨_, b₀, hint, h⟩ := run_bind.1 h
  obtain ⟨_, b₁, hbool, h⟩ := run_bind.1 h
  obtain ⟨structs, b₂, htypes, h⟩ := run_bind.1 h
  obtain ⟨_, b₃, hfields, h⟩ := run_bind.1 h
  exact ⟨b₂, b₃, structs,
    ⟨b₁, (builds_ensureInt _ _ _ hint).trans (builds_ensureBool _ _ _ hbool), htypes⟩, hfields, h⟩

namespace Stages
variable {ds : List Declaration} {fs : List Function} {b b₁ b₂ b' : Assembly} {structs : List PendingStruct}

theorem types (h : Stages ds fs b b₁ b₂ b' structs) : b.Extends b₂ := by
  obtain ⟨b₀, hb₀, htypes⟩ := h.basic
  have hdeclared := (hb₀.trans (builds_declareTypes _ _ _ _ htypes)).toExtends
  exact hdeclared.trans (extends_of_defineStructs h.fields)

theorem whole (h : Stages ds fs b b₁ b₂ b' structs) : b.Extends b' :=
  h.types.trans (builds_buildFunctions _ _ _ _ _ h.functions).toExtends

end Stages

end Text

namespace Program

theorem extends_of_addText {p p' : Program} {text : String} {file : Option String}
    (h : p.addText text file = .ok p') :
    p.table.Extends p'.table ∧ p.diagnostics <+: p'.diagnostics := by
  rw [addText] at h
  split at h
  · rw [Except.ok.injEq] at h
    rw [← h]
    exact ⟨.refl _, List.prefix_append _ _⟩
  · obtain ⟨⟨fs, b⟩, hr, h⟩ := bind_eq_ok.1 h
    rw [pure_eq_ok] at h
    rw [← h]
    obtain ⟨_, _, _, hstages⟩ := Text.stages_of_buildDeclarations hr
    exact ⟨hstages.whole.table, hstages.whole.diagnostics⟩

theorem built {texts : List (String × Option String)} {p : Program} (h : ofTexts texts = .ok p) :
    p.table.Built :=
  ofTexts_induction (P := fun p => p.table.Built) .empty
    (fun hp hadd => (extends_of_addText hadd).1.built hp) h

end Program
end MovePlan
