import MovePlan.Proofs.Text.Denoted

set_option autoImplicit false

namespace MovePlan

def UserMove.plain (m : UserMove) : UserMove := { m with span := {} }

def UserOps.plain (ops : UserOps) : UserOps :=
  { ops with
    moveCtor := ops.moveCtor.map UserMove.plain
    moveAssign := ops.moveAssign.map UserMove.plain
    span := {} }

def TypeDef.plain (d : TypeDef) : TypeDef := { d with ops := d.ops.plain }

def Site.plain (s : Site) : Site := { s with span := {} }

def Block.plain (b : Block) : Block := { b with sites := b.sites.map Site.plain, span := {} }

def Binding.plain (b : Binding) : Binding := { b with span := {} }

mutual

def Function.plain : Function → Function
  | ⟨name, entry, blocks, bindings, params, forwards, captures, nested, _⟩ =>
    ⟨name, entry, blocks.mapEntries fun _ => Block.plain, bindings.mapEntries fun _ => Binding.plain, params,
      forwards, captures, plainAll nested, {}⟩

def Function.plainAll : List Function → List Function
  | [] => []
  | f :: rest => f.plain :: plainAll rest

end

/-- A program without the spans of its types and functions. -/
def Program.plain (p : Program) : Program :=
  { p with
    table := { p.table with defs := p.table.defs.map TypeDef.plain }
    functions := p.functions.map Function.plain }

namespace Text

theorem TypeExpr.derived_plain (t : TypeExpr) : t.plain.derived = t.derived := by
  induction t with
  | named name => rfl
  | pointer inner ih => rw [plain, derived, ih, derived, plain, plain, inner.plain_plain]
  | reference isMut inner ih => rw [plain, derived, ih, derived, plain, plain, inner.plain_plain]

theorem grow_map_plain (u ts : List TypeExpr) : grow u (ts.map TypeExpr.plain) = grow u ts := by
  rw [grow, List.flatMap_map, grow]
  exact congrArg (List.foldl enter u) (List.flatMap_congr fun t _ => t.derived_plain)

theorem filterMap_map_comm {α β γ δ : Type} {f : α → γ} {g : γ → Option δ} {g' : α → Option β} {h : β → δ}
    (hcomm : ∀ x, g (f x) = (g' x).map h) (xs : List α) : (xs.map f).filterMap g = (xs.filterMap g').map h := by
  rw [List.filterMap_map, List.map_filterMap]
  exact List.filterMap_congr fun x _ => hcomm x

theorem SiteExpr.type?_plain (s : SiteExpr) : s.plain.type? = s.type?.map TypeExpr.plain := by
  cases s <;> rfl

theorem Statement.type?_plain (s : Statement) : s.plain.type? = s.type?.map TypeExpr.plain := by
  cases s with
  | site s span => exact s.type?_plain
  | edge => rfl
  | jump => rfl
  | ret => rfl

theorem Members.blocks_plain (body : Members) : body.plain.blocks = body.blocks.map BlockDecl.plain := by
  induction body using Members.blocks.induct with
  | case1 => rfl
  | case2 b rest ih => exact congrArg (List.cons b.plain) ih
  | case3 s rest ih => exact ih
  | case4 f rest ih => exact ih

theorem Members.scopes_plain (body : Members) : body.plain.scopes = body.scopes.map ScopeDecl.plain := by
  induction body using Members.scopes.induct with
  | case1 => rfl
  | case2 s rest ih => exact congrArg (List.cons s.plain) ih
  | case3 b rest ih => exact ih
  | case4 f rest ih => exact ih

theorem ownTypes_plain (params : List Parameter) (body : Members) :
    ownTypes (params.map Parameter.plain) body.plain = (ownTypes params body).map TypeExpr.plain := by
  rw [ownTypes, body.blocks_plain, List.flatMap_map, ownTypes, List.map_append, List.map_map, List.map_map,
    List.map_flatMap]
  exact congrArg _ (List.flatMap_congr fun b _ => filterMap_map_comm Statement.type?_plain b.body)

mutual

theorem FunctionDecl.types_plain (f : FunctionDecl) : f.plain.types = f.types.map TypeExpr.plain := by
  cases f with
  | mk name params captures body span =>
    rw [FunctionDecl.plain, FunctionDecl.types, FunctionDecl.types, ownTypes_plain, body.nestedTypes_plain,
      List.map_append]

theorem Members.nestedTypes_plain (body : Members) :
    body.plain.nestedTypes = body.nestedTypes.map TypeExpr.plain := by
  cases body with
  | nil => rfl
  | block b rest => exact rest.nestedTypes_plain
  | scope s rest => exact rest.nestedTypes_plain
  | nested f rest =>
    rw [Members.plain, Members.nestedTypes, Members.nestedTypes, f.types_plain, rest.nestedTypes_plain,
      List.map_append]

end

theorem Declaration.fields_plain (d : Declaration) : d.plain.fields = d.fields.map FieldDecl.plain := by
  cases d <;> rfl

theorem Declaration.function?_plain (d : Declaration) : d.plain.function? = d.function?.map FunctionDecl.plain := by
  cases d <;> rfl

theorem outerFunctions_plain (ds : List Declaration) :
    outerFunctions (ds.map Declaration.plain) = (outerFunctions ds).map FunctionDecl.plain :=
  filterMap_map_comm Declaration.function?_plain ds

theorem declaredNames_plain (ds : List Declaration) :
    declaredNames (ds.map Declaration.plain) = declaredNames ds := by
  rw [declaredNames, List.filterMap_map, declaredNames]
  refine List.filterMap_congr fun d _ => ?_
  cases d <;> rfl

theorem mentions_plain (ds : List Declaration) :
    mentions (ds.map Declaration.plain) = (mentions ds).map TypeExpr.plain := by
  rw [mentions, outerFunctions_plain, List.flatMap_map, List.flatMap_map, mentions, List.map_append, List.map_flatMap,
    List.map_flatMap]
  refine congrArg₂ _ (List.flatMap_congr fun d _ => ?_) (List.flatMap_congr fun f _ => f.types_plain)
  rw [d.fields_plain, List.map_map, List.map_map]
  rfl

theorem allTypes_plain (ds : List Declaration) : allTypes (ds.map Declaration.plain) = allTypes ds := by
  rw [allTypes, mentions_plain, grow_map_plain, knownNames, declaredNames_plain]
  rfl

theorem plain_opsOf (file : Option String) (attributes : List TypeAttribute) (span : Span) :
    (opsOf file attributes span).plain = opsOf none (attributes.map TypeAttribute.plain) {} := by
  have hctor : ∀ a, TypeAttribute.moveCtor? none a.plain = (TypeAttribute.moveCtor? file a).map UserMove.plain := by
    rintro (_ | _ | _) <;> rfl
  have hassign : ∀ a, TypeAttribute.moveAssign? none a.plain =
      (TypeAttribute.moveAssign? file a).map UserMove.plain := by
    rintro (_ | _ | _) <;> rfl
  have hdrop : .drop ∈ attributes.map TypeAttribute.plain ↔ .drop ∈ attributes := by
    rw [List.mem_map]
    refine ⟨?_, fun h => ⟨_, h, rfl⟩⟩
    rintro ⟨_ | _ | _, ha, heq⟩
    · cases heq
    · cases heq
    · exact ha
  rw [opsOf, opsOf, UserOps.plain, filterMap_map_comm hctor, filterMap_map_comm hassign, List.getLast?_map,
    List.getLast?_map, decide_eq_decide.2 hdrop]
  rfl

theorem field_plain (u : List TypeExpr) (f : FieldDecl) : f.plain.field u = f.field u := by
  rw [FieldDecl.field, FieldDecl.plain, idIn_plain]
  rfl

theorem plain_typeDef? (file : Option String) (u : List TypeExpr) (d : Declaration) :
    d.plain.typeDef? none (List.map (FieldDecl.field u)) =
      (d.typeDef? file (List.map (FieldDecl.field u))).map TypeDef.plain := by
  cases d with
  | type name isScalar attributes span =>
    cases isScalar with
    | true => rfl
    | false =>
      rw [Declaration.plain, Declaration.typeDef?, ← plain_opsOf file attributes span]
      rfl
  | struct name attributes fields span =>
    have hfields : (fields.map FieldDecl.plain).map (FieldDecl.field u) = fields.map (FieldDecl.field u) := by
      rw [List.map_map]
      exact List.map_congr_left fun f _ => field_plain u f
    rw [Declaration.plain, Declaration.typeDef?, ← plain_opsOf file attributes span, hfields]
    rfl
  | function f => rfl

theorem plain_typesOf (file : Option String) (u : List TypeExpr) (ds : List Declaration) :
    (typesOf file u ds).map TypeDef.plain = typesOf none u (ds.map Declaration.plain) := by
  have hderived : (u.filterMap (TypeExpr.derivedDef? u)).map TypeDef.plain =
      u.filterMap (TypeExpr.derivedDef? u) := by
    rw [List.map_filterMap]
    refine List.filterMap_congr fun t _ => ?_
    cases t <;> rfl
  rw [typesOf, typesOf, List.map_append, List.map_append, filterMap_map_comm (plain_typeDef? file u), hderived]
  rfl

theorem plain_site (file : Option String) (u : List TypeExpr) (id : ℕ) (block : BlockId) (index : ℕ) (span : Span)
    (s : SiteExpr) : (s.site file u id block index span).plain = s.plain.site none u id block index {} := by
  cases s with
  | temp type target =>
    have htype : (SiteExpr.temp type target).plain.tempType?.map (idIn u) =
        (SiteExpr.temp type target).tempType?.map (idIn u) := congrArg some (idIn_plain u type)
    rw [SiteExpr.site, SiteExpr.site, htype]
    rfl
  | decl | read | write | addr | move => rfl

theorem plain_sitesFrom (file : Option String) (u : List TypeExpr) (block : BlockId) (id index : ℕ)
    (statements : List Statement) : (sitesFrom file u block id index statements).map Site.plain =
      sitesFrom none u block id index (statements.map Statement.plain) := by
  induction statements generalizing id index with
  | nil => rfl
  | cons s rest ih =>
    cases s with
    | site s span =>
      rw [List.map_cons, Statement.plain, sitesFrom, sitesFrom, List.map_cons, plain_site, ih]
    | edge | jump | ret => exact ih id index

theorem edgesFrom_plain (target : String → Option BlockId) (src : BlockId) (next : ℤ) (statements : List Statement) :
    edgesFrom target src next (statements.map Statement.plain) = edgesFrom target src next statements := by
  induction statements generalizing next with
  | nil => rfl
  | cons s rest ih =>
    cases s with
    | site | ret => exact ih next
    | edge word dst => exact congrArg (List.cons _) (ih next)
    | jump label => exact congrArg (List.cons _) (ih _)

theorem missing_plain (target : String → Option BlockId) (statements : List Statement) :
    missing target (statements.map Statement.plain) = missing target statements := by
  rw [missing, List.filterMap_map, missing]
  refine congrArg _ (List.filterMap_congr fun s _ => ?_)
  cases s <;> rfl

theorem length_sites_plain (statements : List Statement) :
    ((statements.map Statement.plain).filterMap Statement.site?).length =
      (statements.filterMap Statement.site?).length := by
  have hcomm : ∀ s : Statement, s.plain.site? = s.site?.map fun p => (p.1.plain, {}) := by
    intro s
    cases s <;> rfl
  rw [filterMap_map_comm hcomm, List.length_map]

theorem plain_blocksFrom (file : Option String) (u : List TypeExpr) (target : String → Option BlockId) (id : ℕ)
    (next : ℤ) (bs : List BlockDecl) : (blocksFrom file u target id next bs).map (fun e => (e.1, e.2.plain)) =
      blocksFrom none u target id next (bs.map BlockDecl.plain) := by
  induction bs generalizing id next with
  | nil => rfl
  | cons b bs ih =>
    have hblock : (b.block file u target id next).plain = b.plain.block none u target id next := by
      have hlabel : b.label.map Name.text = (b.label.map Name.plain).map Name.text := by
        rw [Option.map_map]
        rfl
      rw [BlockDecl.block, Block.plain, plain_sitesFrom, hlabel, ← edgesFrom_plain]
      rfl
    rw [blocksFrom, List.map_cons, hblock, ih, List.map_cons, blocksFrom, ← length_sites_plain, ← missing_plain]
    rfl

theorem labelTarget_plain (bs : List BlockDecl) : labelTarget (bs.map BlockDecl.plain) = labelTarget bs := by
  funext label
  rw [labelTarget, List.find?_map, Option.map_map, labelTarget]
  have hlabel : ∀ b : BlockDecl, b.plain.label.map Name.text = b.label.map Name.text := by
    intro b
    rw [BlockDecl.plain, Option.map_map]
    rfl
  simp only [Function.comp_def, hlabel]
  rfl

theorem firstMissing_plain (bs : List BlockDecl) : firstMissing (bs.map BlockDecl.plain) = firstMissing bs := by
  rw [firstMissing, List.map_map]
  rfl

theorem declarations_plain (bs : List BlockDecl) :
    declarations (bs.map BlockDecl.plain) = (declarations bs).map fun d => (d.1, d.2.1.plain, {}) := by
  have hcomm : ∀ s : Statement, s.plain.declared? = s.declared?.map fun d => (d.1, d.2.1.plain, {}) := by
    rintro (⟨_ | _ | _ | _ | _ | _⟩ | _ | _ | _) <;> rfl
  rw [declarations, List.flatMap_map, declarations, List.map_flatMap]
  exact List.flatMap_congr fun b _ => filterMap_map_comm hcomm b.body

theorem regionOf_plain (scopes : List ScopeDecl) (name : String) :
    regionOf (scopes.map ScopeDecl.plain) name = regionOf scopes name := by
  rw [regionOf, List.filter_map, List.getLast?_map, Option.map_map]
  rfl

theorem forwardsFrom_plain (index : ℕ) (params : List Parameter) :
    forwardsFrom index (params.map Parameter.plain) = forwardsFrom index params := by
  rw [forwardsFrom, List.zipIdx_map, List.filter_map, List.map_map]
  rfl

theorem plain_capturedBinding (outer : OrderedMap String Binding) (name : String) :
    (capturedBinding outer name).plain = capturedBinding (outer.mapEntries fun _ => Binding.plain) name := by
  rw [capturedBinding, capturedBinding, OrderedMap.get?_mapEntries, Option.map_map]
  rfl

theorem plain_binding (file : Option String) (u : List TypeExpr) (p : Parameter) :
    (p.binding file u).plain = p.plain.binding none u := by
  rw [Parameter.binding, Parameter.binding, Parameter.plain, idIn_plain]
  rfl

theorem plain_localBinding (file : Option String) (u : List TypeExpr) (scopes : List ScopeDecl)
    (d : String × TypeExpr × Span) : (localBinding file u scopes d).plain =
      localBinding none u (scopes.map ScopeDecl.plain) (d.1, d.2.1.plain, {}) := by
  rw [localBinding, localBinding, idIn_plain, regionOf_plain]
  rfl

theorem plain_bodyOf (file : Option String) (u : List TypeExpr) (outer : OrderedMap String Binding) (name : Name)
    (params : List Parameter) (captures : List String) (body : Members) (span : Span) :
    (bodyOf file u outer name params captures body span).plain =
      bodyOf none u (outer.mapEntries fun _ => Binding.plain) name.plain (params.map Parameter.plain) captures
        body.plain {} := by
  have hblocks : (bodyOf file u outer name params captures body span).blocks.mapEntries (fun _ => Block.plain) =
      .ofList (blocksFrom none u (labelTarget body.plain.blocks) 0 (firstMissing body.plain.blocks)
        body.plain.blocks) := by
    rw [bodyOf, OrderedMap.mapEntries_ofList, plain_blocksFrom, body.blocks_plain, labelTarget_plain,
      firstMissing_plain]
  have hbindings :
      (bodyOf file u outer name params captures body span).bindings.mapEntries (fun _ => Binding.plain) =
        .ofList (captures.map (fun c => (c, capturedBinding (outer.mapEntries fun _ => Binding.plain) c)) ++
        (params.map Parameter.plain).map (fun p => (p.name.text, p.binding none u)) ++
        (declarations body.plain.blocks).map fun d => (d.1, localBinding none u body.plain.scopes d)) := by
    rw [bodyOf, OrderedMap.mapEntries_ofList, body.blocks_plain, body.scopes_plain, declarations_plain,
      List.map_append, List.map_append, List.map_map, List.map_map, List.map_map, List.map_map, List.map_map]
    refine congrArg OrderedMap.ofList (congrArg₂ _ (congrArg₂ _ (List.map_congr_left fun c _ => ?_)
      (List.map_congr_left fun p _ => ?_)) (List.map_congr_left fun d _ => ?_))
    · exact congrArg (Prod.mk c) (plain_capturedBinding outer c)
    · exact congrArg (Prod.mk p.name.text) (plain_binding file u p)
    · exact congrArg (Prod.mk d.1) (plain_localBinding file u body.scopes d)
  have hentry : (body.plain.blocks.head?.map fun b => (b.id.value : ℤ)) =
      body.blocks.head?.map fun b => (b.id.value : ℤ) := by
    rw [body.blocks_plain, List.head?_map, Option.map_map]
    rfl
  have hparams : (params.map Parameter.plain).map (·.name.text) = params.map (·.name.text) := by
    rw [List.map_map]
    rfl
  rw [bodyOf] at hblocks hbindings
  rw [bodyOf, Function.plain, hblocks, hbindings, bodyOf, forwardsFrom_plain, hentry, hparams]
  rfl

mutual

theorem plain_function (file : Option String) (u : List TypeExpr) (outer : OrderedMap String Binding)
    (f : FunctionDecl) : (f.function file u outer).plain =
      f.plain.function none u (outer.mapEntries fun _ => Binding.plain) := by
  cases f with
  | mk name params captures body span =>
    have hbody := plain_bodyOf file u outer name params captures body span
    have hnested := plain_nestedFunctions file u (bodyOf file u outer name params captures body span).bindings body
    have hbindings :
        (bodyOf file u outer name params captures body span).bindings.mapEntries (fun _ => Binding.plain) =
          (bodyOf none u (outer.mapEntries fun _ => Binding.plain) name.plain (params.map Parameter.plain)
            captures body.plain {}).bindings := congrArg Function.bindings hbody
    rw [hbindings] at hnested
    calc (FunctionDecl.function file u outer (.mk name params captures body span)).plain
        = { (bodyOf file u outer name params captures body span).plain with
            nested := Function.plainAll (body.nestedFunctions file u
              (bodyOf file u outer name params captures body span).bindings) } := rfl
      _ = _ := by
        rw [hbody, hnested]
        rfl

theorem plain_nestedFunctions (file : Option String) (u : List TypeExpr) (outer : OrderedMap String Binding)
    (body : Members) : Function.plainAll (body.nestedFunctions file u outer) =
      body.plain.nestedFunctions none u (outer.mapEntries fun _ => Binding.plain) := by
  cases body with
  | nil => rfl
  | block b rest => exact plain_nestedFunctions file u outer rest
  | scope s rest => exact plain_nestedFunctions file u outer rest
  | nested f rest => exact congrArg₂ _ (plain_function file u outer f) (plain_nestedFunctions file u outer rest)

end

/-- What declarations denote up to spans is what they denote without spans. -/
theorem plain_denote (file : Option String) (ds : List Declaration) :
    (denote file ds).plain = denote none (ds.map Declaration.plain) := by
  have hfunctions : ((outerFunctions ds).map (FunctionDecl.function file (allTypes ds) .empty)).map Function.plain =
      ((outerFunctions ds).map FunctionDecl.plain).map (FunctionDecl.function none (allTypes ds) .empty) := by
    rw [List.map_map, List.map_map]
    exact List.map_congr_left fun f _ => plain_function file (allTypes ds) .empty f
  rw [denote, Program.plain, hfunctions, plain_typesOf, denote, allTypes_plain, outerFunctions_plain]

theorem ownNames_plain (params : List Parameter) (body : Members) :
    ownNames (params.map Parameter.plain) body.plain = ownNames params body := by
  rw [ownNames, body.blocks_plain, declarations_plain, List.map_map, List.map_map]
  rfl

theorem labels_plain (bs : List BlockDecl) : (bs.map BlockDecl.plain).filterMap (fun b => b.label.map Name.text) =
    bs.filterMap fun b => b.label.map Name.text := by
  rw [List.filterMap_map]
  refine List.filterMap_congr fun b _ => ?_
  cases hlabel : b.label <;> simp [BlockDecl.plain, hlabel, Name.plain]

theorem proper_plain {outer captures : List String} {params : List Parameter} {body : Members} :
    Proper outer (params.map Parameter.plain) captures body.plain ↔ Proper outer params captures body := by
  rw [proper_iff, proper_iff, ownNames_plain, body.blocks_plain, body.scopes_plain, labels_plain, declarations_plain,
    List.forall_mem_map, List.forall_mem_map, List.map_map, List.map_map]
  rfl

mutual

theorem FunctionDecl.wellScoped_plain (outer : List String) (f : FunctionDecl) :
    f.plain.WellScoped outer ↔ f.WellScoped outer := by
  cases f with
  | mk name params captures body span =>
    rw [FunctionDecl.plain, FunctionDecl.WellScoped, FunctionDecl.WellScoped, proper_plain, ownNames_plain,
      body.wellScoped_plain]

theorem Members.wellScoped_plain (outer : List String) (body : Members) :
    body.plain.WellScoped outer ↔ body.WellScoped outer := by
  cases body with
  | nil => rfl
  | block b rest => exact rest.wellScoped_plain outer
  | scope s rest => exact rest.wellScoped_plain outer
  | nested f rest => exact and_congr (f.wellScoped_plain outer) (rest.wellScoped_plain outer)

end

theorem wellScoped_plain (ds : List Declaration) : WellScoped (ds.map Declaration.plain) ↔ WellScoped ds := by
  have hfields : ∀ d : Declaration, d.plain.fields.map (·.name.text) = d.fields.map (·.name.text) := by
    intro d
    rw [d.fields_plain, List.map_map]
    rfl
  have hnames : ((outerFunctions ds).map FunctionDecl.plain).map (·.name.text) =
      (outerFunctions ds).map (·.name.text) := by
    rw [List.map_map]
    refine List.map_congr_left fun f _ => ?_
    cases f
    rfl
  rw [wellScoped_iff, wellScoped_iff, knownNames, declaredNames_plain, mentions_plain, outerFunctions_plain, hnames]
  simp only [List.forall_mem_map, hfields, TypeExpr.base_plain, FunctionDecl.wellScoped_plain]
  rfl

theorem Statement.numerals_plain (s : Statement) : s.plain.numerals = s.numerals := by
  rcases s with (⟨_ | _ | _ | _ | _ | _⟩ | _ | _ | _) <;> rfl

theorem Members.numerals_plain (body : Members) : body.plain.numerals = body.numerals := by
  have hbody : ∀ b : BlockDecl, b.plain.body.flatMap Statement.numerals = b.body.flatMap Statement.numerals := by
    intro b
    rw [BlockDecl.plain, List.flatMap_map]
    exact List.flatMap_congr fun s _ => s.numerals_plain
  rw [numerals, numerals, body.blocks_plain, body.scopes_plain, List.map_map, List.flatMap_map, List.flatMap_map]
  simp only [hbody]
  rfl

mutual

theorem FunctionDecl.numerals_plain (f : FunctionDecl) : f.plain.numerals = f.numerals := by
  cases f with
  | mk name params captures body span =>
    rw [FunctionDecl.plain, FunctionDecl.numerals, FunctionDecl.numerals, body.numerals_plain,
      body.nestedNumerals_plain]

theorem Members.nestedNumerals_plain (body : Members) : body.plain.nestedNumerals = body.nestedNumerals := by
  cases body with
  | nil => rfl
  | block b rest => exact rest.nestedNumerals_plain
  | scope s rest => exact rest.nestedNumerals_plain
  | nested f rest => exact congrArg₂ _ f.numerals_plain rest.nestedNumerals_plain

end

theorem numerals_plain (ds : List Declaration) : numerals (ds.map Declaration.plain) = numerals ds := by
  rw [numerals, outerFunctions_plain, List.flatMap_map, numerals]
  exact List.flatMap_congr fun f _ => f.numerals_plain

end Text
end MovePlan
