import MovePlan.Proofs.Text.Demands.Functions

set_option autoImplicit false

namespace MovePlan.Text
variable {ns : Names} {b : Assembly}

theorem run_bind_of_ok {α β : Type} {op : Assemble α} {next : α → Assemble β} {b b' : Assembly} {a : α}
    (h : op b = .ok (a, b')) : (op >>= next) b = next a b' := by
  have hbind : (op >>= next) b = op b >>= fun p => next p.1 p.2 := rfl
  rw [hbind, h]
  rfl

theorem exists_ensureNamed {name : String} {ensure : TypeTable → Except TypeError (TypeTable × TypeId)}
    {b : Assembly} (h : name ∉ b.table.names →
      ∃ t id, ensure b.table = .ok (t, id) ∧ DeclaredIn [name] b.table t) :
    ∃ b', ensureNamed name ensure b = .ok ((), b') ∧ DeclaredIn [name] b.table b'.table := by
  have hrun : ensureNamed name ensure b = (if (b.table.lookup name).isNone then do
      let _ ← onTable ensure
    else pure () : Assemble Unit) b := rfl
  rw [hrun]
  by_cases hname : name ∈ b.table.names
  · obtain ⟨id, hid⟩ := Option.isSome_iff_exists.1 (TypeTable.lookup_isSome_iff.2 hname)
    rw [hid, if_neg (by simp)]
    refine ⟨b, rfl, ⟨fun n => ?_, rfl, .refl _⟩⟩
    rw [List.mem_singleton, iff_self_or]
    rintro rfl
    exact hname
  · rw [if_pos (by rw [TypeTable.lookup_eq_none_iff.2 hname]; rfl)]
    obtain ⟨t, id, ht, hadds⟩ := h hname
    refine ⟨{ b with table := t }, ?_, hadds⟩
    exact run_bind.2 ⟨id, _, run_onTable.2 ⟨t, ht, rfl⟩, rfl⟩

theorem exists_ensure {t : TypeTable} {d : TypeDef} (hd : d.kind.isNominal = true)
    (keep : TypeTable → TypeId → TypeTable) (hheads : ∀ s i, (keep s i).heads = s.heads)
    (hunknown : ∀ s i, (keep s i).unknownType = s.unknownType) (hname : d.name ∉ t.names)
    {known : Option TypeId} :
    known = none → ∃ t' id, (match known with
      | some id => .ok (t, id)
      | none => do
        let (s, i) ← t.register d
        return (keep s i, i)) = (.ok (t', id) : Except TypeError (TypeTable × TypeId)) ∧
      DeclaredIn [d.name] t t' := by
  rintro rfl
  have hadds := declaredIn_append (t := t) hd
  refine ⟨_, _, bind_eq_ok.2 ⟨_, TypeTable.register_eq_ok hname, rfl⟩, ⟨fun n => ?_, ?_, ?_⟩⟩
  · rw [TypeTable.names, hheads]
    exact hadds.names n
  · exact (hunknown _ _).trans hadds.unknownType
  · rw [TypeTable.Later, hheads]
    exact hadds.later

theorem ready_of_declared {t t' : TypeTable} {ds : List Declaration} (ht : t.BasicNamed)
    (h : DeclaredIn ("Int" :: "Bool" :: declaredNames ds) t t') : Ready (namesOf t ds) t' := by
  have hnames : ∀ n, n ∈ t'.names ↔ n ∈ (namesOf t ds).known := by
    intro n
    rw [h.names, namesOf, takenNames]
    simp only [List.mem_cons, List.mem_append]
    tauto
  have hclash : (namesOf t ds).clash = true ↔ t'.unknownType = none ∧ "Unknown" ∈ t'.names := by
    rw [hnames, h.unknownType, namesOf, Bool.and_eq_true, Option.isNone_iff_eq_none, decide_eq_true_eq]
  exact
    { known := fun n => (hnames n).2
      fresh := fun n hn hfresh => absurd ((hnames n).1 hn) hfresh
      taken := hclash.1
      free := fun hfree hnone hname => by
        rw [hclash.2 ⟨hnone, hname⟩] at hfree
        cases hfree
      unknown := fun hid => h.later.contains (ht.unknown (h.unknownType ▸ hid)).1 }

/-- The declarations of a text are assembled, or the first demand that is refused decides. -/
theorem buildDeclarations_answers (ds : List Declaration) (hbuilt : b.table.Built) :
    match (namesOf b.table ds).firstFault (demandsOf b.table ds) with
    | some e => buildDeclarations ds b = .error e
    | none => ∃ fs b', buildDeclarations ds b = .ok (fs, b') := by
  obtain ⟨b₁, hint, hdeclared₁⟩ : ∃ b', ensureNamed "Int" TypeTable.ensureInt b = .ok ((), b') ∧
      DeclaredIn ["Int"] b.table b'.table :=
    exists_ensureNamed fun hname => exists_ensure (d := { kind := .scalar, name := "Int" }) rfl
      (fun s i => { s with intType := some i }) (fun _ _ => rfl) (fun _ _ => rfl) hname
      (Option.not_isSome_iff_eq_none.1 fun h => hname (hbuilt.basicNamed.int h))
  have hbuilt₁ : b₁.table.Built := (builds_ensureInt b _ b₁ hint).table.built hbuilt
  obtain ⟨b₂, hbool, hdeclared₂⟩ : ∃ b', ensureNamed "Bool" TypeTable.ensureBool b₁ = .ok ((), b') ∧
      DeclaredIn ["Bool"] b₁.table b'.table :=
    exists_ensureNamed fun hname => exists_ensure (d := { kind := .scalar, name := "Bool" }) rfl
      (fun s i => { s with boolType := some i }) (fun _ _ => rfl) (fun _ _ => rfl) hname
      (Option.not_isSome_iff_eq_none.1 fun h => hname (hbuilt₁.basicNamed.bool h))
  have hbasic := hdeclared₁.trans hdeclared₂
  have htaken : ∀ n, n ∈ takenNames b.table ↔ n ∈ b₂.table.names := by
    intro n
    rw [hbasic.names, takenNames]
    simp only [List.mem_cons, List.mem_append]
    tauto
  obtain ⟨structs, b₃, hdeclare, hfields, hdeclared₃, hkinds⟩ := exists_declareTypes ds htaken
  have hready := ready_of_declared hbuilt.basicNamed (hbasic.trans hdeclared₃)
  have hrun : buildDeclarations ds b = (do
      defineStructs structs
      buildFunctions [] ds : Assemble (List Function)) b₃ := by
    rw [buildDeclarations, run_bind_of_ok hint, run_bind_of_ok hbool, run_bind_of_ok hdeclare]
  rw [hrun, demandsOf, ← hfields, List.flatMap_map]
  have hmeets := (meets_defineStructs structs hready hkinds).bind fun _ b₄ h₄ _ _ =>
    meets_buildFunctions [] ds h₄
  rw [Meets] at hmeets
  split
  next e he => rwa [he] at hmeets
  next he =>
    rw [he] at hmeets
    obtain ⟨fs, b', hfs, _⟩ := hmeets
    exact ⟨fs, b', hfs⟩

end MovePlan.Text

namespace MovePlan.Program

/-- A text that cannot be read adds one diagnostic. One that can is assembled and its problems reported,
unless a demand of it is refused: it asks for the type `Unknown` where an author has taken this name, or
it has a numeral that is too long. -/
theorem addText_answers {texts : List (String × Option String)} {p : Program}
    (h : ofTexts texts = .ok p) (text : String) (file : Option String) :
    (∀ e, Text.readText text = .error e →
      p.addText text file = .ok { p with diagnostics := p.diagnostics ++
        [{ message := e.message, code := some "E_SYNTAX", phase := some "parser",
           span := { e.span with file := file } }] }) ∧
    ∀ ds, Text.readText text = .ok ds →
      match (Text.namesOf p.table ds).firstFault (Text.demandsOf p.table ds) with
      | some e => p.addText text file = .error e
      | none => ∃ p', p.addText text file = .ok p' ∧ p.diagnostics <+: p'.diagnostics := by
  constructor
  · intro e he
    rw [addText, he]
  · intro ds hds
    have hrun : p.addText text file = (Text.buildDeclarations ds
        { file := file, table := p.table, diagnostics := p.diagnostics } >>= fun r =>
          .ok { table := r.2.table, functions := p.functions ++ r.1, diagnostics := r.2.diagnostics }) := by
      rw [addText, hds]
      rfl
    have hanswers := Text.buildDeclarations_answers ds
      (b := { file := file, table := p.table, diagnostics := p.diagnostics }) (built h)
    split
    next e he =>
      dsimp only at hanswers
      rw [he] at hanswers
      rw [hrun]
      simp only [hanswers]
      rfl
    next he =>
      dsimp only at hanswers
      rw [he] at hanswers
      obtain ⟨fs, b', hfs⟩ := hanswers
      have hadd : ∃ p', p.addText text file = .ok p' := by
        rw [hrun]
        simp only [hfs]
        exact ⟨_, rfl⟩
      obtain ⟨p', hadd⟩ := hadd
      exact ⟨p', hadd, (extends_of_addText hadd).2⟩

def faultyTexts : List (String × Option String) := [("struct S { a: Nope, a: S, b: *S }", some "first")]

def faultyText : String :=
  "type S scalar fn f(x: Nil, x: S) captures (y) { block 1: decl x: *Nil block 1: ret scope x: 1 }"

theorem addText_faultyText :
    ∃ p p', ofTexts faultyTexts = .ok p ∧ p.addText faultyText none = .ok p' ∧
      p.diagnostics <+: p'.diagnostics := by
  have hfacts : (ofTexts faultyTexts).map (fun p => (Text.readText faultyText).map fun ds =>
      (Text.namesOf p.table ds).firstFault (Text.demandsOf p.table ds)) = .ok (.ok none) := by
    decide +kernel
  obtain ⟨p, hp, hfacts⟩ := map_eq_ok.1 hfacts
  obtain ⟨ds, hds, hnone⟩ := map_eq_ok.1 hfacts
  have hanswers := (addText_answers hp faultyText none).2 ds hds
  rw [hnone] at hanswers
  obtain ⟨p', hadd, hprefix⟩ := hanswers
  exact ⟨p, p', hp, hadd, hprefix⟩

/-- The author has a type `Unknown`, and a field of the struct has no type. -/
def clashingText : String := "type Unknown opaque struct S { a: Nope }"

/-- The text is read, but nothing is reported on it: assembling it fails. -/
theorem addText_clashingText :
    (Text.readText clashingText).isOk = true ∧ ofTexts [] = .ok {} ∧
      ({} : Program).addText clashingText none = .error (.type (.duplicateName "Unknown")) := by
  have hfails : (({} : Program).addText clashingText none).map (fun _ => ()) =
      .error (.type (.duplicateName "Unknown")) := by decide +kernel
  refine ⟨by decide +kernel, rfl, ?_⟩
  cases hadd : ({} : Program).addText clashingText none with
  | error e =>
    rw [hadd] at hfails
    exact congrArg Except.error (Except.error.inj hfails)
  | ok p =>
    rw [hadd] at hfails
    cases hfails

end MovePlan.Program
