import MovePlan.Proofs.Text.Listed.Tables

set_option autoImplicit false

namespace MovePlan.Text
variable {nominal : String → TypeDef} {w u : List TypeExpr}

/-- The state in which the types `u` are registered and nothing is reported. -/
def stage (file : Option String) (nominal : String → TypeDef) (w u : List TypeExpr) : Assembly :=
  { file := file, table := tableAt nominal w u, diagnostics := [] }

variable {file : Option String}

theorem run_resolveType (hn : Nominal nominal) (hw : Listed w) {t : TypeExpr} (hbase : namedType t.base ∈ u)
    (hu : grow u [t] <+: w) :
    resolveType t (stage file nominal w u) = .ok (idIn w t, stage file nominal w (grow u [t])) := by
  induction t with
  | named name =>
    have hlookup := (lookup_tableAt hn hw hu name.text).trans (if_pos hbase)
    exact run_bind.2 ⟨some (idIn w (namedType name.text)), _, run_lookupType.2 ⟨hlookup, rfl⟩, rfl⟩
  | pointer inner ih =>
    rw [grow_pointer] at hu ⊢
    have hinner := (prefix_enter _ _).trans hu
    exact run_bind.2 ⟨_, _, ih hbase hinner,
      run_onTable.2 ⟨_, newPointer_tableAt hn hw (mem_grow_type hbase) hu, rfl⟩⟩
  | reference isMut inner ih =>
    rw [grow_reference] at hu ⊢
    have hinner := (prefix_enter _ _).trans hu
    exact run_bind.2 ⟨_, _, ih hbase hinner,
      run_onTable.2 ⟨_, newReference_tableAt hn hw isMut (mem_grow_type hbase) hu, rfl⟩⟩

theorem run_resolveFields (file : Option String) (hn : Nominal nominal) (hw : Listed w) (struct : String)
    {seen : List String} {fields : List FieldDecl} (hnames : (fields.map (·.name.text)).Nodup)
    (hseen : ∀ f ∈ fields, f.name.text ∉ seen)
    (hbase : ∀ f ∈ fields, namedType f.type.base ∈ u) (hu : grow u (fields.map FieldDecl.type) <+: w) :
    resolveFields struct seen fields (stage file nominal w u) =
      .ok (fields.map (FieldDecl.field w), stage file nominal w (grow u (fields.map FieldDecl.type))) := by
  induction fields generalizing u seen with
  | nil => rfl
  | cons f fields ih =>
    rw [List.map_cons, List.nodup_cons] at hnames
    rw [List.forall_mem_cons] at hseen hbase
    rw [List.map_cons, grow_cons] at hu
    rw [List.map_cons, List.map_cons, grow_cons, resolveFields, if_neg hseen.1]
    have hgrown := (prefix_grow _ _).trans hu
    refine run_bind.2 ⟨_, _, run_resolveType hn hw hbase.1 hgrown, run_bind.2 ⟨_, _, ih hnames.2 ?_ ?_ hu, rfl⟩⟩
    · intro g hg hmem
      rcases List.mem_cons.1 hmem with heq | hmem
      · exact hnames.1 (heq ▸ List.mem_map_of_mem hg)
      · exact hseen.2 g hg hmem
    · exact fun g hg => (prefix_grow u _).subset (hbase.2 g hg)

theorem map_set_idxOf {α β : Type} [DecidableEq α] {xs : List α} (hxs : xs.Nodup) (g : α → β) {x : α} (d : β) :
    (xs.map g).set (xs.idxOf x) d = xs.map fun y => if y = x then d else g y := by
  induction xs with
  | nil => rfl
  | cons y xs ih =>
    rw [List.nodup_cons] at hxs
    by_cases hy : y = x
    · subst hy
      have hrest : ∀ z ∈ xs, (if z = y then d else g z) = g z := by
        intro z hz
        rw [if_neg]
        rintro rfl
        exact hxs.1 hz
      rw [List.idxOf_cons_self, List.map_cons, List.set_cons_zero, List.map_cons, if_pos rfl,
        List.map_congr_left hrest]
    · rw [List.idxOf_cons_ne _ hy, List.map_cons, List.set_cons_succ, ih hxs.2, List.map_cons, if_neg hy]

def withFields (nominal : String → TypeDef) (s : String) (fields : List Field) : String → TypeDef :=
  Function.update nominal s { nominal s with fields := fields }

theorem Nominal.withFields (hn : Nominal nominal) (s : String) (fields : List Field) :
    Nominal (withFields nominal s fields) := by
  constructor <;> intro s' <;> rw [Text.withFields, Function.update_apply] <;> split
  · subst s'
    exact hn.name s
  · exact hn.name s'
  · exact hn.kind s
  · exact hn.kind s'

theorem defineStruct_tableAt (hw : Listed w) (hu : u <+: w) {s : String} (hs : namedType s ∈ u)
    (hkind : (nominal s).kind = .struct) {fields : List Field} (hnames : (fields.map (·.name)).Nodup)
    (htypes : ∀ x ∈ fields, (tableAt nominal w u).contains x.type = true) :
    (tableAt nominal w u).defineStruct (idIn w (namedType s)) fields =
      .ok (tableAt (withFields nominal s fields) w u) := by
  have hget : (tableAt nominal w u).get (idIn w (namedType s)) = .ok (nominal s) := get_tableAt hu hs
  have hindex : (idIn w (namedType s) - 1).toNat = u.idxOf (namedType s) := by
    rw [← one_add_idxOf hu rfl hs]
    omega
  have hdef : ∀ t ∈ u, (if t = namedType s then { nominal s with fields := fields } else defIn nominal w t) =
      defIn (withFields nominal s fields) w t := by
    intro t ht
    cases t with
    | named name =>
      have hplain : (TypeExpr.named name).plain = .named name := hw.plain _ (hu.subset ht)
      have hiff : TypeExpr.named name = namedType s ↔ name.text = s := by
        rw [← hplain, TypeExpr.plain, namedType, TypeExpr.named.injEq]
        exact Name.plain_eq_iff (m := { text := s })
      change _ = Function.update nominal s { nominal s with fields := fields } name.text
      rw [Function.update_apply]
      exact ite_congr (propext hiff) (fun _ => rfl) fun _ => rfl
    | pointer inner => exact if_neg (by simp [namedType])
    | reference isMut inner => exact if_neg (by simp [namedType])
  refine bind_eq_ok.2 ⟨_, hget, ?_⟩
  rw [if_neg (not_not_intro hkind), TypeTable.fieldFault_eq_none hnames (by simp) htypes]
  refine congrArg Except.ok ?_
  rw [hindex, tableAt, map_set_idxOf (hu.sublist.nodup hw.nodup), List.map_congr_left hdef]
  rfl

/-- The definitions once the pending structs have their fields. -/
def complete (w : List TypeExpr) : List PendingStruct → (String → TypeDef) → String → TypeDef
  | [], nominal => nominal
  | p :: rest, nominal => complete w rest (withFields nominal p.name (p.fields.map (FieldDecl.field w)))

structure PendingStruct.Fits (p : PendingStruct) (nominal : String → TypeDef) (w u : List TypeExpr) : Prop where
  id : p.id = idIn w (namedType p.name)
  declared : namedType p.name ∈ u
  kind : (nominal p.name).kind = .struct
  names : (p.fields.map (·.name.text)).Nodup
  bases : ∀ f ∈ p.fields, namedType f.type.base ∈ u

theorem PendingStruct.Fits.mono {p : PendingStruct} (h : p.Fits nominal w u) {s : String} {fields : List Field}
    {u' : List TypeExpr} (hu : u <+: u') : p.Fits (withFields nominal s fields) w u' where
  id := h.id
  declared := hu.subset h.declared
  kind := by
    rw [withFields, Function.update_apply]
    split
    next heq => exact heq ▸ h.kind
    next => exact h.kind
  names := h.names
  bases f hf := hu.subset (h.bases f hf)

theorem run_defineStructs (hn : Nominal nominal) (hw : Listed w) {structs : List PendingStruct}
    (hstructs : ∀ p ∈ structs, p.Fits nominal w u)
    (hu : grow u (structs.flatMap fun p => p.fields.map FieldDecl.type) <+: w) :
    defineStructs structs (stage file nominal w u) = .ok ((), stage file (complete w structs nominal) w
      (grow u (structs.flatMap fun p => p.fields.map FieldDecl.type))) := by
  induction structs generalizing nominal u with
  | nil => rfl
  | cons p rest ih =>
    rw [List.forall_mem_cons] at hstructs
    obtain ⟨hp, hrest⟩ := hstructs
    rw [List.flatMap_cons, grow_append] at hu ⊢
    have hgrown := (prefix_grow _ _).trans hu
    have hgrow := prefix_grow u (p.fields.map FieldDecl.type)
    have hnames : ((p.fields.map (FieldDecl.field w)).map (·.name)).Nodup := by
      rw [List.map_map]
      exact hp.names
    have htypes : ∀ x ∈ p.fields.map (FieldDecl.field w),
        (tableAt nominal w (grow u (p.fields.map FieldDecl.type))).contains x.type = true := by
      intro x hx
      obtain ⟨f, hf, rfl⟩ := List.mem_map.1 hx
      refine contains_tableAt hgrown (mem_grow ?_ (List.mem_map_of_mem hf))
      exact List.forall_mem_map.2 hp.bases
    have hdefine := defineStruct_tableAt hw hgrown (hgrow.subset hp.declared) hp.kind hnames htypes
    rw [← hp.id] at hdefine
    have hfields := run_resolveFields file hn hw p.name hp.names (fun _ _ => List.not_mem_nil) hp.bases hgrown
    exact run_bind.2 ⟨_, _, hfields, run_bind.2 ⟨(), _,
      run_onTable.2 ⟨_, bind_eq_ok.2 ⟨_, hdefine, rfl⟩, rfl⟩,
      ih (hn.withFields _ _) (fun q hq => (hrest q hq).mono hgrow) hu⟩⟩

end MovePlan.Text
