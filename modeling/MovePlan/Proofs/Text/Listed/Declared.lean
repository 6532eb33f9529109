import MovePlan.Proofs.Text.Listed.Fields

set_option autoImplicit false

namespace MovePlan.Text

theorem declaredNames_cons (d : Declaration) (ds : List Declaration) :
    declaredNames (d :: ds) = declaredNames [d] ++ declaredNames ds :=
  List.filterMap_append (l := [d])

/-- The definitions of the names, where a struct has the fields that `fields` gives. -/
def nominalOf (file : Option String) (fields : List FieldDecl → List Field) (ds : List Declaration) (s : String) :
    TypeDef :=
  ((ds.filterMap (Declaration.typeDef? file fields)).find? fun d => d.name = s).getD
    { kind := .scalar, name := s }

theorem Declaration.nominal_typeDef? {file : Option String} {fields : List FieldDecl → List Field} {d : Declaration}
    {x : TypeDef} (h : d.typeDef? file fields = some x) : x.kind.isNominal = true := by
  cases d with
  | type name isScalar attributes span =>
    cases isScalar <;> obtain rfl := Option.some.inj h <;> rfl
  | struct name attributes fs span =>
    obtain rfl := Option.some.inj h
    rfl
  | function f => cases h

theorem nominal_nominalOf (file : Option String) (fields : List FieldDecl → List Field) (ds : List Declaration) :
    Nominal (nominalOf file fields ds) := by
  constructor <;> intro s <;> rw [nominalOf]
  · cases hfind : (ds.filterMap (Declaration.typeDef? file fields)).find? fun d => d.name = s with
    | none => rfl
    | some x =>
      have hname := List.find?_some hfind
      exact of_decide_eq_true hname
  · cases hfind : (ds.filterMap (Declaration.typeDef? file fields)).find? fun d => d.name = s with
    | none => rfl
    | some x =>
      obtain ⟨d, -, hd⟩ := List.mem_filterMap.1 (List.mem_of_find?_eq_some hfind)
      exact Declaration.nominal_typeDef? hd

def Declaration.pending? (w : List TypeExpr) : Declaration → Option PendingStruct
  | .struct name _ fields _ => some { id := idIn w (namedType name.text), name := name.text, fields := fields }
  | _ => none

variable {file : Option String} {nominal : String → TypeDef} {w u : List TypeExpr}

theorem run_userOps (attributes : List TypeAttribute) (span : Span) (b : Assembly) :
    userOps attributes span b = .ok (opsOf b.file attributes span, b) := by
  change Except.ok (List.foldl _ _ attributes, b) = _
  refine congrArg (fun ops => Except.ok (ops, b)) ?_
  induction attributes using List.reverseRecOn with
  | nil => rfl
  | append_singleton attributes a ih =>
    rw [List.foldl_append, ih]
    cases a <;> simp [opsOf, TypeAttribute.moveCtor?, TypeAttribute.moveAssign?]

theorem register_tableAt (hn : Nominal nominal) (hw : Listed w) {d : TypeDef} (hu : u ++ [namedType d.name] <+: w)
    (hfresh : namedType d.name ∉ u) (hd : nominal d.name = d) : (tableAt nominal w u).register d =
      .ok (tableAt nominal w (u ++ [namedType d.name]), idIn w (namedType d.name)) := by
  have hlookup := lookup_tableAt hn hw ((List.prefix_append u _).trans hu) d.name
  rw [if_neg hfresh] at hlookup
  rw [TypeTable.register, hlookup, if_neg (by simp)]
  exact congrArg Except.ok (append_tableAt hd.symm rfl hu hfresh)

theorem run_declareNew (file : Option String) (hn : Nominal nominal) (hw : Listed w) (name : Name) {d : TypeDef}
    (hname : d.name = name.text) (hu : u ++ [namedType name.text] <+: w) (hfresh : namedType name.text ∉ u)
    (hd : nominal d.name = d)
    {register : TypeTable → Except TypeError (TypeTable × TypeId)} (hregister : ∀ t, register t = t.register d) :
    declareNew name register (stage file nominal w u) =
      .ok (some (idIn w (namedType name.text)), stage file nominal w (u ++ [namedType name.text])) := by
  rw [← hname] at hu hfresh ⊢
  have hlookup := lookup_tableAt hn hw ((List.prefix_append u _).trans hu) d.name
  rw [if_neg hfresh, hname] at hlookup
  refine run_bind.2 ⟨none, _, run_lookupType.2 ⟨hlookup, rfl⟩, ?_⟩
  rw [if_neg (by simp)]
  exact run_bind.2 ⟨_, _, run_onTable.2 ⟨_, (hregister _).trans (register_tableAt hn hw hu hfresh hd), rfl⟩, rfl⟩

theorem run_declareTypes (hn : Nominal nominal) (hw : Listed w) {ds : List Declaration}
    (hdefs : ∀ d ∈ ds, ∀ x, d.typeDef? file (fun _ => []) = some x → nominal x.name = x)
    (hnames : (declaredNames ds).Nodup) (hfresh : ∀ s ∈ declaredNames ds, namedType s ∉ u)
    (hu : u ++ (declaredNames ds).map namedType <+: w) :
    declareTypes ds (stage file nominal w u) = .ok (ds.filterMap (Declaration.pending? w),
      stage file nominal w (u ++ (declaredNames ds).map namedType)) := by
  induction ds generalizing u with
  | nil =>
    rw [show declaredNames [] = [] from rfl, List.map_nil, List.append_nil]
    rfl
  | cons d ds ih =>
    rw [List.forall_mem_cons] at hdefs
    -- what is left to do once the name of the first declaration is registered
    have hrest : ∀ {s}, declaredNames [d] = [s] → namedType s ∉ u ∧ u ++ [namedType s] <+: w ∧
        declareTypes ds (stage file nominal w (u ++ [namedType s])) = .ok (ds.filterMap (Declaration.pending? w),
          stage file nominal w (u ++ (declaredNames (d :: ds)).map namedType)) := by
      intro s hs
      rw [declaredNames_cons, hs, List.singleton_append] at hnames hfresh hu ⊢
      rw [List.nodup_cons] at hnames
      rw [List.forall_mem_cons] at hfresh
      rw [List.map_cons, List.append_cons u (namedType s) ((declaredNames ds).map namedType)] at hu ⊢
      refine ⟨hfresh.1, (List.prefix_append _ _).trans hu, ih hdefs.2 hnames.2 (fun s' hs' hmem => ?_) hu⟩
      rcases List.mem_append.1 hmem with hmem | hmem
      · exact hfresh.2 s' hs' hmem
      · have heq : s' = s := congrArg Name.text (TypeExpr.named.inj (List.mem_singleton.1 hmem))
        exact hnames.1 (heq ▸ hs')
    cases d with
    | type name isScalar attributes span =>
      obtain ⟨hnew, hgrown, hrest⟩ := hrest (s := name.text) rfl
      cases isScalar with
      | true =>
        have hdeclare := run_declareNew file hn hw name rfl hgrown hnew (hdefs.1 _ rfl) fun _ => rfl
        exact run_bind.2 ⟨_, _, run_userOps attributes span _, run_bind.2 ⟨_, _, hdeclare, hrest⟩⟩
      | false =>
        have hdeclare := run_declareNew file hn hw name rfl hgrown hnew (hdefs.1 _ rfl) fun _ => rfl
        exact run_bind.2 ⟨_, _, run_userOps attributes span _, run_bind.2 ⟨_, _, hdeclare, hrest⟩⟩
    | struct name attributes fields span =>
      obtain ⟨hnew, hgrown, hrest⟩ := hrest (s := name.text) rfl
      have hdeclare := run_declareNew file hn hw name rfl hgrown hnew (hdefs.1 _ rfl) fun _ => rfl
      exact run_bind.2 ⟨_, _, run_userOps attributes span _, run_bind.2 ⟨_, _, hdeclare,
        run_bind.2 ⟨_, _, hrest, rfl⟩⟩⟩
    | function f => exact ih hdefs.2 hnames hfresh hu

end MovePlan.Text
