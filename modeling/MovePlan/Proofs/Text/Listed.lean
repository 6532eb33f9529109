import MovePlan.Proofs.Text.Listed.Declared

set_option autoImplicit false

namespace MovePlan.Text
variable {file : Option String} {nominal : String → TypeDef} {w u : List TypeExpr}

theorem find?_of_nodup {α β : Type} [DecidableEq β] {key : α → β} {xs : List α} (h : (xs.map key).Nodup) {x : α}
    (hx : x ∈ xs) : xs.find? (fun y => key y = key x) = some x := by
  obtain ⟨y, hy⟩ : ∃ y, xs.find? (fun y => key y = key x) = some y :=
    Option.isSome_iff_exists.1 (List.find?_isSome.2 ⟨x, hx, decide_eq_true rfl⟩)
  have hkey : key y = key x := by simpa using List.find?_some hy
  rw [hy, List.inj_on_of_nodup_map h (List.mem_of_find?_eq_some hy) hx hkey]

theorem map_name_typeDef? (file : Option String) (fields : List FieldDecl → List Field) (ds : List Declaration) :
    (ds.filterMap (Declaration.typeDef? file fields)).map TypeDef.name = declaredNames ds := by
  induction ds with
  | nil => rfl
  | cons d ds ih =>
    rw [declaredNames_cons, ← ih, List.filterMap_cons]
    cases d with
    | type name isScalar => cases isScalar <;> rfl
    | struct => rfl
    | function => rfl

variable {ds : List Declaration}

theorem nominalOf_name {fields : List FieldDecl → List Field} (hnames : (declaredNames ds).Nodup) {d : Declaration}
    (hd : d ∈ ds) {x : TypeDef} (hx : d.typeDef? file fields = some x) : nominalOf file fields ds x.name = x := by
  rw [← map_name_typeDef? file fields] at hnames
  rw [nominalOf, find?_of_nodup hnames (List.mem_filterMap.2 ⟨d, hd, hx⟩), Option.getD_some]

theorem nominalOf_of_notMem {fields : List FieldDecl → List Field} {s : String} (hs : s ∉ declaredNames ds) :
    nominalOf file fields ds s = { kind := .scalar, name := s } := by
  have hfind : (ds.filterMap (Declaration.typeDef? file fields)).find? (fun d => d.name = s) = none := by
    refine List.find?_eq_none.2 fun x hx hname => hs ?_
    rw [← map_name_typeDef? file fields ds, ← of_decide_eq_true hname]
    exact List.mem_map_of_mem hx
  rw [nominalOf, hfind, Option.getD_none]

theorem complete_of_notMem {structs : List PendingStruct} {s : String} (hs : s ∉ structs.map PendingStruct.name) :
    complete w structs nominal s = nominal s := by
  induction structs generalizing nominal with
  | nil => rfl
  | cons p rest ih =>
    rw [List.map_cons, List.mem_cons, not_or] at hs
    rw [complete, ih hs.2, withFields, Function.update_of_ne hs.1]

theorem complete_of_mem {structs : List PendingStruct} (hnames : (structs.map PendingStruct.name).Nodup)
    {p : PendingStruct} (hp : p ∈ structs) : complete w structs nominal p.name =
      { nominal p.name with fields := p.fields.map (FieldDecl.field w) } := by
  induction structs generalizing nominal with
  | nil => cases hp
  | cons q rest ih =>
    rw [List.map_cons, List.nodup_cons] at hnames
    rw [complete]
    rcases List.mem_cons.1 hp with rfl | hp
    · rw [complete_of_notMem hnames.1, withFields, Function.update_self]
    · have hne : p.name ≠ q.name := fun heq => hnames.1 (heq ▸ List.mem_map_of_mem hp)
      rw [ih hnames.2 hp, withFields, Function.update_of_ne hne]

theorem pending?_name (file : Option String) {d : Declaration} {p : PendingStruct} (hp : d.pending? w = some p) :
    ∃ x, d.typeDef? file (fun _ => []) = some x ∧ x.name = p.name ∧ x.kind = .struct := by
  cases d with
  | struct name attributes fs span =>
    obtain rfl := Option.some.inj hp
    exact ⟨_, rfl, rfl, rfl⟩
  | type => cases hp
  | function => cases hp

theorem sublist_pending (w : List TypeExpr) (ds : List Declaration) :
    ((ds.filterMap (Declaration.pending? w)).map PendingStruct.name).Sublist (declaredNames ds) := by
  induction ds with
  | nil => exact List.Sublist.refl _
  | cons d ds ih =>
    rw [declaredNames_cons, List.filterMap_cons]
    cases d with
    | type name => exact ih.cons name.text
    | struct name => exact ih.cons_cons name.text
    | function => exact ih

theorem complete_nominalOf (hnames : (declaredNames ds).Nodup) {d : Declaration} (hd : d ∈ ds) {x : TypeDef}
    (hx : d.typeDef? file (List.map (FieldDecl.field w)) = some x) :
    complete w (ds.filterMap (Declaration.pending? w)) (nominalOf file (fun _ => []) ds) x.name = x := by
  cases d with
  | type name isScalar attributes span =>
    have hsame : (Declaration.type name isScalar attributes span).typeDef? file (fun _ => []) = some x := by
      cases isScalar <;> exact hx
    have hkind : x.kind ≠ .struct := by
      cases isScalar <;> obtain rfl := Option.some.inj hx <;> exact fun h => by cases h
    rw [complete_of_notMem, nominalOf_name hnames hd hsame]
    intro hmem
    obtain ⟨p, hp, hname⟩ := List.mem_map.1 hmem
    obtain ⟨d', hd', hp⟩ := List.mem_filterMap.1 hp
    obtain ⟨y, hy, hyname, hystruct⟩ := pending?_name file hp
    have hx' := nominalOf_name hnames hd hsame
    rw [← hname, ← hyname, nominalOf_name hnames hd' hy] at hx'
    exact hkind (hx' ▸ hystruct)
  | struct name attributes fields span =>
    have hp : { id := idIn w (namedType name.text), name := name.text, fields := fields } ∈
        ds.filterMap (Declaration.pending? w) := List.mem_filterMap.2 ⟨_, hd, rfl⟩
    have hbare : nominalOf file (fun _ => []) ds name.text =
        { kind := .struct, name := name.text, ops := opsOf file attributes span } := nominalOf_name hnames hd rfl
    have hcomplete : complete w _ (nominalOf file (fun _ => []) ds) name.text = _ :=
      complete_of_mem ((sublist_pending w ds).nodup hnames) hp
    obtain rfl := Option.some.inj hx
    rw [hbare] at hcomplete
    exact hcomplete
  | function => cases hx

theorem derivedDef?_of_mem_derived (w : List TypeExpr) {t x : TypeExpr} (hx : x ∈ t.derived) :
    ∃ d, x.derivedDef? w = some d := by
  induction t with
  | named name => cases hx
  | pointer inner ih =>
    rcases List.mem_append.1 hx with hx | hx
    · exact ih hx
    · obtain rfl := List.mem_singleton.1 hx
      exact ⟨_, rfl⟩
  | reference isMut inner ih =>
    rcases List.mem_append.1 hx with hx | hx
    · exact ih hx
    · obtain rfl := List.mem_singleton.1 hx
      exact ⟨_, rfl⟩

theorem exists_grow (w u ts : List TypeExpr) :
    ∃ new, grow u ts = u ++ new ∧ ∀ x ∈ new, ∃ d, x.derivedDef? w = some d := by
  have main : ∀ (xs u : List TypeExpr), (∀ x ∈ xs, ∃ d, x.derivedDef? w = some d) →
      ∃ new, xs.foldl enter u = u ++ new ∧ ∀ x ∈ new, ∃ d, x.derivedDef? w = some d := by
    intro xs
    induction xs with
    | nil => exact fun u _ => ⟨[], (List.append_nil u).symm, by simp⟩
    | cons x xs ih =>
      intro u hxs
      rw [List.forall_mem_cons] at hxs
      obtain ⟨new, hnew, hderived⟩ := ih (enter u x) hxs.2
      rw [List.foldl_cons, hnew, enter]
      split
      · exact ⟨new, rfl, hderived⟩
      · exact ⟨x :: new, List.append_assoc .., List.forall_mem_cons.2 ⟨hxs.1, hderived⟩⟩
  refine main _ u fun x hx => ?_
  obtain ⟨t, -, hx⟩ := List.mem_flatMap.1 hx
  exact derivedDef?_of_mem_derived w hx

theorem map_declaredNames {fields : List FieldDecl → List Field}
    (hdefs : ∀ d ∈ ds, ∀ x, d.typeDef? file fields = some x → nominal x.name = x) :
    (declaredNames ds).map nominal = ds.filterMap (Declaration.typeDef? file fields) := by
  rw [← map_name_typeDef? file fields, List.map_map]
  refine (List.map_congr_left fun x hx => ?_).trans (List.map_id _)
  obtain ⟨d, hd, hx⟩ := List.mem_filterMap.1 hx
  exact hdefs d hd x hx

/-- The table of all types has the definitions that the text stands for. -/
theorem tableAt_allTypes (hint : nominal "Int" = { kind := .scalar, name := "Int" })
    (hbool : nominal "Bool" = { kind := .scalar, name := "Bool" })
    (hdefs : ∀ d ∈ ds, ∀ x, d.typeDef? file (List.map (FieldDecl.field (allTypes ds))) = some x →
      nominal x.name = x) :
    tableAt nominal (allTypes ds) (allTypes ds) =
      { defs := typesOf file (allTypes ds) ds, intType := some 1, boolType := some 2 } := by
  have hsame : allTypes ds = grow ((knownNames ds).map namedType) (mentions ds) := rfl
  generalize allTypes ds = w at hsame hdefs
  obtain ⟨new, hnew, hderived⟩ := exists_grow w ((knownNames ds).map namedType) (mentions ds)
  have hold : (knownNames ds).map (defIn nominal w ∘ namedType) = [{ kind := .scalar, name := "Int" },
      { kind := .scalar, name := "Bool" }] ++
        ds.filterMap (Declaration.typeDef? file (List.map (FieldDecl.field w))) := by
    rw [← map_declaredNames hdefs, ← hint, ← hbool]
    rfl
  have hnone : ((knownNames ds).map namedType).filterMap (TypeExpr.derivedDef? w) = [] := by
    rw [List.filterMap_map]
    exact List.filterMap_eq_nil_iff.2 fun _ _ => rfl
  have hlater : new.map (defIn nominal w) = new.filterMap (TypeExpr.derivedDef? w) := by
    clear hnew
    induction new with
    | nil => rfl
    | cons x new ih =>
      rw [List.forall_mem_cons] at hderived
      obtain ⟨⟨d, hd⟩, hderived⟩ := hderived
      rw [List.map_cons, List.filterMap_cons, hd, ih hderived, defIn, hd, Option.getD_some]
  have hall : ∀ v, v = (knownNames ds).map namedType ++ new → v.map (defIn nominal w) =
      [{ kind := .scalar, name := "Int" }, { kind := .scalar, name := "Bool" }] ++
        ds.filterMap (Declaration.typeDef? file (List.map (FieldDecl.field w))) ++
        v.filterMap (TypeExpr.derivedDef? w) := by
    rintro v rfl
    rw [List.map_append, List.map_map, hold, hlater, List.filterMap_append, hnone, List.nil_append]
  rw [tableAt, typesOf, hall w (hsame.trans hnew)]

theorem run_ensureInt (file : Option String) :
    ensureNamed "Int" TypeTable.ensureInt { file := file, table := {}, diagnostics := [] } =
      .ok ((), { file := file, table := { defs := [{ kind := .scalar, name := "Int" }], intType := some 1 },
                 diagnostics := [] }) :=
  rfl

theorem run_ensureBool (hint : nominal "Int" = { kind := .scalar, name := "Int" })
    (hbool : nominal "Bool" = { kind := .scalar, name := "Bool" }) :
    ensureNamed "Bool" TypeTable.ensureBool
        { file := file, table := { defs := [{ kind := .scalar, name := "Int" }], intType := some 1 },
          diagnostics := [] } =
      .ok ((), stage file nominal w (["Int", "Bool"].map namedType)) := by
  have hdefs : (["Int", "Bool"].map namedType).map (defIn nominal w) =
      [{ kind := .scalar, name := "Int" }, { kind := .scalar, name := "Bool" }] := by
    rw [← hint, ← hbool]
    rfl
  rw [stage, tableAt, hdefs]
  rfl

end MovePlan.Text
