import MovePlan.Proofs.Text.Denoted
import MovePlan.Proofs.Text.Parsed
import MovePlan.Proofs.Text.Spans

set_option autoImplicit false

namespace MovePlan.Text

section
variable {nominal : String → TypeDef} {w : List TypeExpr} {ds : List Declaration}

theorem Nominal.complete (hn : Nominal nominal) (structs : List PendingStruct) :
    Nominal (complete w structs nominal) := by
  induction structs generalizing nominal with
  | nil => exact hn
  | cons p rest ih => exact ih (hn.withFields p.name (p.fields.map (FieldDecl.field w)))

theorem flatMap_pending (w : List TypeExpr) (ds : List Declaration) :
    (ds.filterMap (Declaration.pending? w)).flatMap (fun p => p.fields.map FieldDecl.type) =
      ds.flatMap fun d => d.fields.map FieldDecl.type := by
  induction ds with
  | nil => rfl
  | cons d ds ih =>
    rw [List.filterMap_cons, List.flatMap_cons, ← ih]
    cases d <;> rfl

theorem WellScoped.nodup_declaredNames (h : WellScoped ds) : (declaredNames ds).Nodup :=
  (List.nodup_cons.1 (List.nodup_cons.1 h.types).2).2

theorem WellScoped.basic_notMem (h : WellScoped ds) : "Int" ∉ declaredNames ds ∧ "Bool" ∉ declaredNames ds :=
  ⟨fun hmem => (List.nodup_cons.1 h.types).1 (List.mem_cons_of_mem _ hmem),
    (List.nodup_cons.1 (List.nodup_cons.1 h.types).2).1⟩

theorem WellScoped.bases (h : WellScoped ds) :
    ∀ t ∈ mentions ds, namedType t.base ∈ (knownNames ds).map namedType :=
  fun t ht => List.mem_map_of_mem (h.resolved t ht)

theorem WellScoped.listed (h : WellScoped ds) : Listed (allTypes ds) := (Listed.named h.types).grow h.bases

theorem WellScoped.fits (file : Option String) (w : List TypeExpr) (h : WellScoped ds) {p : PendingStruct}
    (hp : p ∈ ds.filterMap (Declaration.pending? w)) :
    p.Fits (nominalOf file (fun _ => []) ds) w ((knownNames ds).map namedType) := by
  obtain ⟨d, hd, hpending⟩ := List.mem_filterMap.1 hp
  cases d with
  | type => cases hpending
  | function => cases hpending
  | struct name attributes fields span =>
    obtain rfl := Option.some.inj hpending
    have hdef : nominalOf file (fun _ => []) ds name.text =
        { kind := .struct, name := name.text, ops := opsOf file attributes span } :=
      nominalOf_name h.nodup_declaredNames hd rfl
    have hname : name.text ∈ declaredNames ds := List.mem_filterMap.2 ⟨_, hd, rfl⟩
    refine ⟨rfl, List.mem_map_of_mem (List.mem_cons_of_mem _ (List.mem_cons_of_mem _ hname)),
      congrArg TypeDef.kind hdef, h.fields _ hd, fun f hf => h.bases _ (List.mem_append_left _ ?_)⟩
    exact List.mem_flatMap.2 ⟨_, hd, List.mem_map_of_mem hf⟩

/-- The definitions of the names of a text once its structs have their fields. -/
def finalOf (file : Option String) (w : List TypeExpr) (ds : List Declaration) : String → TypeDef :=
  complete w (ds.filterMap (Declaration.pending? w)) (nominalOf file (fun _ => []) ds)

theorem finalOf_of_notMem (file : Option String) (w : List TypeExpr) {s : String} (hs : s ∉ declaredNames ds) :
    finalOf file w ds s = { kind := .scalar, name := s } := by
  rw [finalOf, complete_of_notMem fun hmem => hs ((sublist_pending w ds).subset hmem), nominalOf_of_notMem hs]

theorem WellScoped.run_declareTypes (file : Option String) (h : WellScoped ds) (hw : Listed w)
    (hu : (knownNames ds).map namedType <+: w) :
    declareTypes ds (stage file (nominalOf file (fun _ => []) ds) w (["Int", "Bool"].map namedType)) =
      .ok (ds.filterMap (Declaration.pending? w),
        stage file (nominalOf file (fun _ => []) ds) w ((knownNames ds).map namedType)) := by
  have hnames := h.nodup_declaredNames
  refine Text.run_declareTypes (nominal_nominalOf _ _ _) hw (fun d hd x hx => nominalOf_name hnames hd hx) hnames
    (fun s hs hmem => ?_) hu
  obtain ⟨basic, hbasic, heq⟩ := List.mem_map.1 hmem
  obtain rfl : basic = s := congrArg Name.text (TypeExpr.named.inj heq)
  rcases List.mem_pair.1 hbasic with rfl | rfl
  · exact h.basic_notMem.1 hs
  · exact h.basic_notMem.2 hs

theorem WellScoped.run_defineStructs (file : Option String) (h : WellScoped ds) (hw : Listed w)
    (hu : grow ((knownNames ds).map namedType) (ds.flatMap fun d => d.fields.map FieldDecl.type) <+: w) :
    defineStructs (ds.filterMap (Declaration.pending? w))
        (stage file (nominalOf file (fun _ => []) ds) w ((knownNames ds).map namedType)) =
      .ok ((), stage file (finalOf file w ds) w
        (grow ((knownNames ds).map namedType) (ds.flatMap fun d => d.fields.map FieldDecl.type))) := by
  rw [← flatMap_pending w] at hu ⊢
  exact Text.run_defineStructs (nominal_nominalOf _ _ _) hw (fun p hp => h.fits file w hp) hu

/-- A right text is assembled to what it denotes, and nothing is reported. -/
theorem run_buildDeclarations (file : Option String) (h : WellScoped ds) (hshort : Short (numerals ds)) :
    buildDeclarations ds { file := file, table := {}, diagnostics := [] } =
      .ok ((denote file ds).functions, { file := file, table := (denote file ds).table, diagnostics := [] }) := by
  have hw := h.listed
  have hall : grow (grow ((knownNames ds).map namedType) (ds.flatMap fun d => d.fields.map FieldDecl.type))
      ((outerFunctions ds).flatMap FunctionDecl.types) = allTypes ds := (grow_append _ _ _).symm
  have hgrown : grow _ ((outerFunctions ds).flatMap FunctionDecl.types) <+: allTypes ds :=
    ⟨[], (List.append_nil _).trans hall⟩
  have hfields := (prefix_grow _ _).trans hgrown
  have hbases := h.bases
  rw [mentions, List.forall_mem_append] at hbases
  have hint := h.basic_notMem.1
  have hbool := h.basic_notMem.2
  have hn : Nominal (finalOf file (allTypes ds) ds) := (nominal_nominalOf _ _ _).complete _
  have hfunctions := run_buildFunctions file hn hw h.names (fun _ _ => List.not_mem_nil) h.functions hshort
    (fun t ht => (prefix_grow _ _).subset (hbases.2 t ht)) hgrown
  have htable : tableAt (finalOf file (allTypes ds) ds) (allTypes ds) (allTypes ds) = (denote file ds).table :=
    tableAt_allTypes (finalOf_of_notMem file _ hint) (finalOf_of_notMem file _ hbool)
      fun d hd x hx => complete_nominalOf h.nodup_declaredNames hd hx
  have hend : stage file (finalOf file (allTypes ds) ds) (allTypes ds) (allTypes ds) =
      { file := file, table := (denote file ds).table, diagnostics := [] } :=
    congrArg (Assembly.mk file · []) htable
  rw [hall, hend] at hfunctions
  exact run_bind.2 ⟨_, _, run_ensureInt file, run_bind.2 ⟨_, _,
    run_ensureBool (nominalOf_of_notMem hint) (nominalOf_of_notMem hbool), run_bind.2 ⟨_, _,
      h.run_declareTypes file hw ((prefix_grow _ _).trans hfields), run_bind.2 ⟨_, _,
        h.run_defineStructs file hw hfields, hfunctions⟩⟩⟩⟩

end

namespace Names
variable {ns : Names}

theorem firstFault_flatMap_eq_none {α : Type} {f : α → List Demand} {xs : List α}
    (h : ∀ x ∈ xs, ns.firstFault (f x) = none) : ns.firstFault (xs.flatMap f) = none := by
  refine List.findSome?_eq_none_iff.2 fun d hd => ?_
  obtain ⟨x, hx, hd⟩ := List.mem_flatMap.1 hd
  exact List.findSome?_eq_none_iff.1 (h x hx) d hd

theorem firstFault_flatMap {α : Type} {f g : α → List Demand} {xs : List α}
    (h : ∀ x ∈ xs, ns.firstFault (f x) = ns.firstFault (g x)) :
    ns.firstFault (xs.flatMap f) = ns.firstFault (xs.flatMap g) := by
  induction xs with
  | nil => rfl
  | cons x xs ih =>
    rw [List.forall_mem_cons] at h
    rw [List.flatMap_cons, List.flatMap_cons, firstFault_append, firstFault_append, h.1, ih h.2]

theorem firstFault_numbers (numbers : List Numeral) : ns.firstFault (numbers.map .number) =
    (numbers.find? Numeral.isTooLong).map fun n => .longNumeral n.length := by
  induction numbers with
  | nil => rfl
  | cons n numbers ih =>
    rw [List.map_cons, firstFault, List.findSome?_cons, ← firstFault, ih, List.find?_cons, fault?]
    cases n.isTooLong <;> rfl

theorem firstFault_type {t : TypeExpr} (h : t.base ∈ ns.known) : ns.firstFault t.demands = none := by
  have hdemands : t.demands = [.type t.base] := by
    induction t with
    | named name => rfl
    | pointer inner ih => exact ih h
    | reference isMut inner ih => exact ih h
  rw [hdemands, firstFault_singleton, fault?, if_neg fun hbad => hbad.1 h]

end Names

section
variable {ns : Names}

theorem firstFault_statement {s : Statement} (h : ∀ t ∈ s.type?, t.base ∈ ns.known) :
    ns.firstFault s.demands = ns.firstFault (s.numerals.map .number) := by
  have htarget : ∀ target : TargetExpr, target.demands = target.numerals.map .number := by
    rintro (_ | _ | _) <;> rfl
  rcases s with (⟨name, type⟩ | _ | _ | _ | ⟨flags, place, target⟩ | ⟨type, target⟩) | _ | _ | _
  case site.decl => exact Names.firstFault_type (h type rfl)
  case site.temp =>
    rw [Statement.demands, SiteExpr.demands, Names.firstFault_append, Names.firstFault_type (h type rfl), htarget]
    rfl
  case site.move => exact congrArg ns.firstFault (htarget target)
  all_goals rfl

theorem keptBodies_eq {bs : List BlockDecl} {seen : List BlockId} (hids : (bs.map fun b => b.id.value).Nodup)
    (hseen : ∀ b ∈ bs, (b.id.value : ℤ) ∉ seen) :
    keptBodies seen bs = bs.map fun b => ((b.id.value : ℤ), b.body) := by
  induction bs generalizing seen with
  | nil => rfl
  | cons b bs ih =>
    rw [List.map_cons, List.nodup_cons] at hids
    rw [List.forall_mem_cons] at hseen
    rw [keptBodies, if_neg hseen.1, List.map_cons, ih hids.2]
    intro c hc hmem
    rcases List.mem_cons.1 hmem with heq | hmem
    · exact hids.1 (Int.natCast_inj.1 heq ▸ List.mem_map_of_mem hc)
    · exact hseen.2 c hc hmem

theorem locals_eq {body : Members} (hids : (body.blocks.map fun b => b.id.value).Nodup) :
    body.locals = (declarations body.blocks).map Prod.fst := by
  have hlocal : ∀ s : Statement, s.local? = s.declared?.map Prod.fst := by
    rintro (⟨_ | _ | _ | _ | _ | _⟩ | _ | _ | _) <;> rfl
  rw [Members.locals, keptBodies_eq hids fun _ _ => List.not_mem_nil, List.flatMap_map, declarations,
    List.map_flatMap]
  refine List.flatMap_congr fun b _ => ?_
  rw [List.map_filterMap]
  exact List.filterMap_congr fun s _ => hlocal s

variable {outer names captures : List String} {params : List Parameter} {body : Members}

theorem firstFault_body (h : Proper names params captures body) (hnames : names ⊆ outer)
    (htypes : ∀ t ∈ ownTypes params body, t.base ∈ ns.known) :
    ns.firstFault (bodyDemands outer params captures body) = ns.firstFault (body.numerals.map .number) := by
  rw [ownTypes, List.forall_mem_append] at htypes
  have hcaptures : captures.filter (· ∉ outer) = [] :=
    List.filter_eq_nil_iff.2 fun c hc => by simpa using hnames (h.known c hc)
  have hparams : ns.firstFault (params.flatMap (·.type.demands)) = none := by
    refine Names.firstFault_flatMap_eq_none fun p hp => ?_
    exact Names.firstFault_type (htypes.1 p.type (List.mem_map_of_mem hp))
  have hstatements : ns.firstFault ((keptBodies [] body.blocks).flatMap fun b => b.2.flatMap Statement.demands) =
      ns.firstFault ((body.blocks.flatMap fun b => b.body.flatMap Statement.numerals).map .number) := by
    rw [keptBodies_eq h.blocks fun _ _ => List.not_mem_nil, List.flatMap_map, List.map_flatMap]
    refine Names.firstFault_flatMap fun b hb => ?_
    rw [List.map_flatMap]
    refine Names.firstFault_flatMap fun s hs => firstFault_statement fun t ht => htypes.2 t ?_
    exact List.mem_flatMap.2 ⟨b, hb, List.mem_filterMap.2 ⟨s, hs, ht⟩⟩
  have hscopes : body.scopes.flatMap (scopeDemands (boundNames params captures) body.locals) =
      (body.scopes.flatMap ScopeDecl.blocks).map .number := by
    rw [List.map_flatMap]
    refine List.flatMap_congr fun s hs => ?_
    have hlocal := h.scopes s hs
    have hbound : s.name.text ∉ boundNames params captures := by
      rw [boundNames, List.mem_append, not_or]
      refine ⟨h.fresh _ (List.mem_append_right _ hlocal), fun hmem => ?_⟩
      exact (List.nodup_append.1 h.distinct).2.2 _ hmem _ hlocal rfl
    rw [scopeDemands, locals_eq h.blocks, if_pos ⟨hbound, hlocal⟩]
  rw [bodyDemands, hcaptures, hscopes]
  simp only [Members.numerals, List.map_append, Names.firstFault_append, hparams, hstatements, List.map_nil,
    Names.firstFault_nil, Option.none_or, List.map_map]
  rfl

mutual

theorem firstFault_function (f : FunctionDecl) {outer names : List String} (h : f.WellScoped names)
    (hnames : names ⊆ outer) (htypes : ∀ t ∈ f.types, t.base ∈ ns.known) :
    ns.firstFault (f.demands outer) = ns.firstFault (f.numerals.map .number) := by
  cases f with
  | mk name params captures body span =>
    obtain ⟨hproper, hnested⟩ := h
    rw [FunctionDecl.types, List.forall_mem_append] at htypes
    have hinner : captures ++ ownNames params body ⊆ boundNames params captures ++ body.locals := by
      rw [locals_eq hproper.blocks, boundNames, ownNames, List.append_assoc]
      exact List.Subset.refl _
    rw [FunctionDecl.demands, FunctionDecl.numerals, List.map_append, Names.firstFault_append,
      Names.firstFault_append, firstFault_body hproper hnames htypes.1,
      firstFault_nested body hnested hinner htypes.2]

theorem firstFault_nested (body : Members) {outer names : List String} (h : body.WellScoped names)
    (hnames : names ⊆ outer) (htypes : ∀ t ∈ body.nestedTypes, t.base ∈ ns.known) :
    ns.firstFault (body.nestedDemands outer) = ns.firstFault (body.nestedNumerals.map .number) := by
  cases body with
  | nil => rfl
  | block b rest => exact firstFault_nested rest h hnames htypes
  | scope s rest => exact firstFault_nested rest h hnames htypes
  | nested f rest =>
    rw [Members.nestedTypes, List.forall_mem_append] at htypes
    rw [Members.nestedDemands, Members.nestedNumerals, List.map_append, Names.firstFault_append,
      Names.firstFault_append, firstFault_function f h.1 hnames htypes.1, firstFault_nested rest h.2 hnames htypes.2]

end

end

theorem firstFault_fields {ns : Names} {seen : List String} {fields : List FieldDecl}
    (h : ∀ f ∈ fields, f.type.base ∈ ns.known) : ns.firstFault (fieldDemands seen fields) = none := by
  induction fields generalizing seen with
  | nil => rfl
  | cons f fields ih =>
    rw [List.forall_mem_cons] at h
    rw [fieldDemands]
    split
    · exact ih h.2
    · rw [Names.firstFault_append, Names.firstFault_type h.1, ih h.2]
      rfl

theorem exists_of_newStructs {taken : List String} {ds : List Declaration} {fields : List FieldDecl}
    (h : fields ∈ newStructs taken ds) : ∃ d ∈ ds, d.fields = fields := by
  induction ds generalizing taken with
  | nil => cases h
  | cons d ds ih =>
    have hlater : (∃ e ∈ ds, e.fields = fields) → ∃ e ∈ d :: ds, e.fields = fields :=
      fun ⟨e, he, heq⟩ => ⟨e, List.mem_cons_of_mem d he, heq⟩
    cases d with
    | type => exact hlater (ih h)
    | function => exact hlater (ih h)
    | struct name attributes fs span =>
      rw [newStructs] at h
      split at h
      · exact hlater (ih h)
      · rcases List.mem_cons.1 h with rfl | h
        · exact ⟨_, List.mem_cons_self, rfl⟩
        · exact hlater (ih h)

theorem demands_functions (ds : List Declaration) :
    ds.flatMap Declaration.demands = (outerFunctions ds).flatMap (FunctionDecl.demands []) := by
  induction ds with
  | nil => rfl
  | cons d ds ih =>
    rw [List.flatMap_cons, ih]
    cases d <;> rfl

theorem firstFault_text {ds : List Declaration} (h : WellScoped ds) :
    (namesOf {} ds).firstFault (demandsOf {} ds) =
      ((numerals ds).find? Numeral.isTooLong).map fun n => .longNumeral n.length := by
  have hresolved : ∀ t ∈ mentions ds, t.base ∈ (namesOf {} ds).known := h.resolved
  rw [mentions, List.forall_mem_append] at hresolved
  have hstructs : (namesOf {} ds).firstFault ((newStructs (takenNames {}) ds).flatMap (fieldDemands [])) = none := by
    refine Names.firstFault_flatMap_eq_none fun fields hfields => firstFault_fields fun f hf => ?_
    obtain ⟨d, hd, rfl⟩ := exists_of_newStructs hfields
    exact hresolved.1 f.type (List.mem_flatMap.2 ⟨d, hd, List.mem_map_of_mem hf⟩)
  rw [← Names.firstFault_numbers, demandsOf, Names.firstFault_append, hstructs, Option.none_or, demands_functions,
    numerals, List.map_flatMap]
  refine Names.firstFault_flatMap fun f hf => ?_
  exact firstFault_function f (h.functions f hf) (List.Subset.refl _) fun t ht =>
    hresolved.2 t (List.mem_flatMap.2 ⟨f, hf, ht⟩)

theorem exists_readText (file : Option String) {ds : List Declaration} (h : WellScoped ds) {x : Layout}
    (hx : Writes ds x.lexemes) : ∃ ds', readText x.text = .ok ds' ∧ WellScoped ds' ∧ numerals ds' = numerals ds ∧
      (denote file ds').plain = (denote file ds).plain := by
  obtain ⟨ds', hread, hplain⟩ := readText_layout hx
  refine ⟨ds', hread, ?_, ?_, ?_⟩
  · rw [← wellScoped_plain, hplain, wellScoped_plain]
    exact h
  · rw [← numerals_plain, hplain, numerals_plain]
  · rw [plain_denote, hplain, plain_denote]

/-- A right text is assembled to what it denotes unless a numeral of it is too long. -/
theorem addText_of_readText {text : String} (file : Option String) {ds : List Declaration}
    (hread : readText text = .ok ds) (h : WellScoped ds) :
    ({} : Program).addText text file = match (numerals ds).find? Numeral.isTooLong with
      | some n => .error (.longNumeral n.length)
      | none => .ok (denote file ds) := by
  have hrun : ({} : Program).addText text file = (buildDeclarations ds
      { file := file, table := {}, diagnostics := [] } >>= fun r =>
        .ok { table := r.2.table, functions := r.1, diagnostics := r.2.diagnostics }) := by
    rw [Program.addText, hread]
    rfl
  rw [hrun]
  cases hfind : (numerals ds).find? Numeral.isTooLong with
  | some n =>
    have hanswers := buildDeclarations_answers ds (b := { file := file, table := {}, diagnostics := [] }) .empty
    have hfault := firstFault_text h
    rw [hfind, Option.map_some] at hfault
    dsimp only at hanswers
    rw [hfault] at hanswers
    simp only [hanswers]
    rfl
  | none =>
    have hshort : Short (numerals ds) := by
      intro n hn
      have hn := List.find?_eq_none.1 hfind n hn
      simpa [Numeral.isTooLong] using hn
    simp only [run_buildDeclarations file h hshort]
    rfl

/-- Whatever stands between the tokens of a right text, it is read as the program that its declarations
denote, up to spans, and nothing is reported. A numeral that is too long is refused, the first of several. -/
theorem addText_layout (file : Option String) {ds : List Declaration} (h : WellScoped ds) {x : Layout}
    (hx : Writes ds x.lexemes) :
    match (numerals ds).find? Numeral.isTooLong with
    | some n => ({} : Program).addText x.text file = .error (.longNumeral n.length)
    | none => ∃ p, ({} : Program).addText x.text file = .ok p ∧ p.diagnostics = [] ∧
        p.plain = (denote file ds).plain := by
  obtain ⟨ds', hread, hscoped, hnumerals, hdenote⟩ := exists_readText file h hx
  have hadd := addText_of_readText file hread hscoped
  rw [hnumerals] at hadd
  split at hadd
  next n hfind => exact hadd
  next hfind => exact ⟨_, hadd, rfl, hdenote⟩

def spaced (gap : Gap) (hgap : gap ≠ []) (ls : List Lexeme) : Layout where
  tokens := ls.map fun l => (gap, l)
  trailing := gap
  separated p hp := by
    obtain ⟨l, -, rfl⟩ := List.mem_map.1 (List.mem_of_mem_tail hp)
    exact hgap

theorem lexemes_spaced (gap : Gap) (hgap : gap ≠ []) (ls : List Lexeme) : (spaced gap hgap ls).lexemes = ls := by
  rw [Layout.lexemes, spaced, List.map_map]
  exact List.map_id ls

def noted : Gap := [.comment [' ', 'x'] (by decide), .blank '\t' rfl]

/-- A struct that leads to itself, and a function that hands its parameter back, with one inside it. -/
def lending : List Declaration := [
  .struct ⟨"S", {}⟩ [.moveCtor true {}, .drop] [⟨⟨"next", {}⟩, .pointer (.named ⟨"S", {}⟩)⟩] {},
  .function (.mk ⟨"f", {}⟩ [⟨⟨"x", {}⟩, some .moveRef, .reference true (.named ⟨"S", {}⟩), true⟩] []
    (.block ⟨Numeral.ofText "2", some ⟨"top", {}⟩, [.site (.decl ⟨"y", {}⟩ (.named ⟨"Int", {}⟩)) {}, .jump "away",
      .edge .back (Numeral.ofText "02")], {}⟩
      (.nested (.mk ⟨"g", {}⟩ [] ["x"] (.block ⟨Numeral.ofText "0", none, [.site (.move [.fwd] ⟨"x", ["next"]⟩
        (.call "h" (Numeral.ofText "1") [.moveRef])) {}], {}⟩ .nil) {})
        (.scope ⟨⟨"y", {}⟩, [Numeral.ofText "2"]⟩ .nil))) {})]

def lendingTokens : List Lexeme := [
  .word .struct, .name "S" rfl, .word .moveCtor, .mark .openParen, .word .canFail, .mark .closeParen, .word .drop,
  .mark .openBrace, .name "next" rfl, .mark .colon, .mark .star, .name "S" rfl, .mark .closeBrace,
  .word .fn, .name "f" rfl, .mark .openParen, .name "x" rfl, .mark .colon, .word .moveRef, .mark .ampersand,
  .word .mutable, .name "S" rfl, .word .forward, .mark .closeParen, .mark .openBrace,
  .word .block, .number "2" rfl, .name "top" rfl, .mark .colon, .word .decl, .name "y" rfl, .mark .colon,
  .name "Int" rfl, .word .jump, .name "away" rfl, .word .back, .number "02" rfl,
  .word .fn, .name "g" rfl, .mark .openParen, .mark .closeParen, .word .captures, .mark .openParen, .name "x" rfl,
  .mark .closeParen, .mark .openBrace, .word .block, .number "0" rfl, .mark .colon, .word .move, .word .fwd,
  .name "x" rfl, .mark .dot, .name "next" rfl, .mark .arrow, .word .call, .name "h" rfl, .mark .openBracket,
  .number "1" rfl, .mark .closeBracket, .word .moveRef, .mark .closeBrace,
  .word .scope, .name "y" rfl, .mark .colon, .number "2" rfl, .mark .closeBrace]

theorem writes_lending : Writes lending lendingTokens := by
  have hstruct : WritesDeclaration (lending[0]) _ := .struct (.mk rfl) (.cons (.moveCtor true {}) (.cons .drop .nil))
    (.last (.mk (.mk rfl) (.pointer (.named (.mk rfl))))) {}
  have hblock : WritesBlock ⟨Numeral.ofText "2", some ⟨"top", {}⟩, [.site (.decl ⟨"y", {}⟩ (.named ⟨"Int", {}⟩)) {},
      .jump "away", .edge .back (Numeral.ofText "02")], {}⟩ _ :=
    .mk (.mk rfl) (.some (.mk rfl)) (.cons (.site (.decl (.mk rfl) (.named (.mk rfl))) {})
      (.cons (.jump (.mk rfl)) (.cons (.edge .back (.mk rfl)) .nil))) {}
  have hmove : WritesStatement (.site (.move [.fwd] ⟨"x", ["next"]⟩ (.call "h" (Numeral.ofText "1") [.moveRef])) {}) _ :=
    .site (.move [.fwd] (.mk (.mk rfl) (.cons (.mk (.mk rfl)) .nil)) (.call (.mk rfl) (.mk rfl) [.moveRef])) {}
  have hinner : WritesFunction (.mk ⟨"g", {}⟩ [] ["x"] (.block ⟨Numeral.ofText "0", none,
      [.site (.move [.fwd] ⟨"x", ["next"]⟩ (.call "h" (Numeral.ofText "1") [.moveRef])) {}], {}⟩ .nil) {}) _ :=
    .mk (.mk rfl) .nil (.cons (.mk rfl) .nil .nil)
      (.block (.mk (.mk rfl) .none (.cons hmove .nil) {}) .nil) {}
  have hparams : WritesParams [⟨⟨"x", {}⟩, some .moveRef, .reference true (.named ⟨"S", {}⟩), true⟩] _ :=
    .cons (.mk (some .moveRef) true (.mk rfl) (.mutable (.named (.mk rfl)))) .nil
  have hscope : WritesScope ⟨⟨"y", {}⟩, [Numeral.ofText "2"]⟩ _ := .mk (.mk rfl) (.mk rfl) .nil
  have hall : Writes lending _ := .cons hstruct (.cons (.function (.mk (.mk rfl) hparams .nil
    (.block hblock (.nested hinner (.scope hscope .nil))) {})) .nil)
  exact hall

theorem wellScoped_lending : WellScoped lending := by decide +kernel

/-- However the text is spaced, it is read as what it says. -/
theorem addText_lending : WellScoped lending ∧ Writes lending (spaced noted (by decide) lendingTokens).lexemes ∧
    ∃ p, ({} : Program).addText (spaced noted (by decide) lendingTokens).text (some "f") = .ok p ∧
      p.diagnostics = [] ∧ p.plain = (denote (some "f") lending).plain := by
  have hwrites : Writes lending (spaced noted (by decide) lendingTokens).lexemes := by
    rw [lexemes_spaced]
    exact writes_lending
  have hnone : (numerals lending).find? Numeral.isTooLong = none := by decide +kernel
  have hlayout := addText_layout (some "f") wellScoped_lending hwrites
  rw [hnone] at hlayout
  exact ⟨wellScoped_lending, hwrites, hlayout⟩

def padded (zeros : ℕ) : String := String.ofList (List.replicate zeros '0' ++ ['1'])

theorem isNumber_padded (zeros : ℕ) : isNumber (padded zeros) = true := by
  rw [isNumber, padded, String.toList_ofList, List.all_append, List.all_replicate]
  have hzero : isDigit '0' = true := by decide
  have hone : ['1'].all isDigit = true := by decide
  rw [hzero, hone, ite_self]
  simp

theorem length_ofText (digits : String) : (Numeral.ofText digits).length = digits.length := by
  rw [Numeral.ofText, Numeral.length, List.length_map, String.length_toList]

def numbered (digits : String) : List Declaration :=
  [.function (.mk ⟨"f", {}⟩ [] [] (.block ⟨Numeral.ofText digits, none, [], {}⟩ .nil) {})]

def numberedTokens (digits : String) (h : isNumber digits = true) : List Lexeme :=
  [.word .fn, .name "f" rfl, .mark .openParen, .mark .closeParen, .mark .openBrace, .word .block, .number digits h,
    .mark .colon, .mark .closeBrace]

theorem writes_numbered {digits : String} (h : isNumber digits = true) :
    Writes (numbered digits) (numberedTokens digits h) := by
  have hall : Writes (numbered digits) _ := .cons (.function (.mk (.mk rfl) .nil .nil
    (.block (.mk (.mk h) .none .nil {}) .nil) {})) .nil
  exact hall

theorem wellScoped_numbered (digits : String) : WellScoped (numbered digits) where
  types := by
    change ["Int", "Bool"].Nodup
    decide
  fields := by simp [numbered, Declaration.fields]
  resolved := by simp [numbered, mentions, outerFunctions, Declaration.fields, Declaration.function?,
    FunctionDecl.types, ownTypes, Members.blocks, Members.nestedTypes]
  names := List.nodup_singleton _
  functions f hf := by
    obtain rfl := List.mem_singleton.1 hf
    refine ⟨⟨?_, ?_, ?_, ?_, ?_, ?_, ?_⟩, trivial⟩ <;>
      simp [ownNames, declarations, Members.blocks, Members.scopes]

theorem addText_numbered {digits : String} (h : isNumber digits = true) (hlong : Numeral.maxLength < digits.length)
    (gap : Gap) (hgap : gap ≠ []) (file : Option String) :
    ({} : Program).addText (spaced gap hgap (numberedTokens digits h)).text file =
      .error (.longNumeral digits.length) := by
  have hwrites : Writes (numbered digits) (spaced gap hgap (numberedTokens digits h)).lexemes := by
    rw [lexemes_spaced]
    exact writes_numbered h
  have hlength := length_ofText digits
  have htooLong : (Numeral.ofText digits).isTooLong = true := by
    rw [Numeral.isTooLong, hlength]
    exact decide_eq_true hlong
  have hnumerals : numerals (numbered digits) = [Numeral.ofText digits] := rfl
  obtain ⟨ds, hread, hscoped, hsame, -⟩ := exists_readText file (wellScoped_numbered digits) hwrites
  have hadd := addText_of_readText file hread hscoped
  rw [hsame, hnumerals, List.find?_cons_of_pos htooLong] at hadd
  exact hlength ▸ hadd

theorem addText_padded : WellScoped (numbered (padded 4300)) ∧
    Writes (numbered (padded 4300)) (spaced [.blank ' ' rfl] (by decide) (numberedTokens (padded 4300)
      (isNumber_padded 4300))).lexemes ∧
    ({} : Program).addText (spaced [.blank ' ' rfl] (by decide) (numberedTokens (padded 4300)
      (isNumber_padded 4300))).text none = .error (.longNumeral 4301) := by
  have hlength : (padded 4300).length = 4301 := by
    rw [padded, String.length_ofList, List.length_append, List.length_replicate, List.length_singleton]
  have hlong : Numeral.maxLength < (padded 4300).length := by
    rw [hlength]
    decide
  refine ⟨wellScoped_numbered _, ?_, ?_⟩
  · rw [lexemes_spaced]
    exact writes_numbered _
  · rw [addText_numbered _ hlong, hlength]

end MovePlan.Text
