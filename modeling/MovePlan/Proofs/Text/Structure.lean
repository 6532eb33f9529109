import MovePlan.Proofs.Text.Sound

set_option autoImplicit false

namespace MovePlan
namespace Text

/-- The declared functions of a text, with those inside them. -/
def functionsOf : List Declaration → List FunctionDecl
  | [] => []
  | .function d :: rest => d.all ++ functionsOf rest
  | .type .. :: rest => functionsOf rest
  | .struct .. :: rest => functionsOf rest

theorem buildFunctions_quiet {seen : List String} {ds : List Declaration} {fs : List Function}
    {b b' : Assembly} (h : buildFunctions seen ds b = .ok (fs, b')) (hq : b'.Quiet) :
    ∀ g ∈ fs, AllRead b'.table (functionsOf ds) g := by
  induction ds generalizing seen fs b with
  | nil =>
    obtain ⟨rfl, rfl⟩ := run_pure.1 h
    simp
  | cons d rest ih =>
    cases d with
    | type name isScalar attributes span => exact ih h
    | struct name attributes fields span => exact ih h
    | function d =>
      obtain ⟨f, b₁, hf, h⟩ := run_bind.1 h
      split at h
      next => exact absurd hq (not_quiet_of_report h fun _ => builds_buildFunctions _ _)
      next =>
        obtain ⟨others, b₂, hothers, h⟩ := run_bind.1 h
        obtain ⟨rfl, rfl⟩ := run_pure.1 h
        have hext := builds_buildFunctions _ _ _ _ _ hothers
        have hread := (buildFunction_quiet none d hf (hext.quiet hq) fun p hp => by cases hp).1
        refine List.forall_mem_cons.2 ⟨hread.mono hext.table (List.subset_append_left _ _), fun g hg => ?_⟩
        exact (ih hothers g hg).mono (.refl _) (List.subset_append_right _ _)

theorem buildDeclarations_quiet {ds : List Declaration} {fs : List Function} {b b' : Assembly}
    (h : buildDeclarations ds b = .ok (fs, b')) (hq : b'.Quiet) :
    ∀ g ∈ fs, AllRead b'.table (functionsOf ds) g := by
  obtain ⟨_, b₁, -, h⟩ := run_bind.1 h
  obtain ⟨_, b₂, -, h⟩ := run_bind.1 h
  obtain ⟨structs, b₃, -, h⟩ := run_bind.1 h
  obtain ⟨_, b₄, -, h⟩ := run_bind.1 h
  exact buildFunctions_quiet h hq

def functionsOfTexts (texts : List (String × Option String)) : List FunctionDecl :=
  texts.flatMap fun t => match readText t.1 with
    | .ok ds => functionsOf ds
    | .error _ => []

theorem allRead_of_ofTexts {texts : List (String × Option String)} {p : Program}
    (h : Program.ofTexts texts = .ok p) (hq : hasErrors p.diagnostics = false) :
    ∀ f ∈ p.functions, AllRead p.table (functionsOfTexts texts) f := by
  refine Program.ofTexts_induction_mem (P := fun p => hasErrors p.diagnostics = false →
    ∀ f ∈ p.functions, AllRead p.table (functionsOfTexts texts) f) (fun _ f hf => by cases hf) ?_ h hq
  intro p p' text file hmem hp hadd hq f hf
  obtain ⟨htable, hdiagnostics⟩ := Program.extends_of_addText hadd
  have hold : f ∈ p.functions → AllRead p'.table (functionsOfTexts texts) f := fun hf =>
    (hp (quiet_of_isPrefix hdiagnostics hq) f hf).mono htable (List.Subset.refl _)
  rw [Program.addText] at hadd
  split at hadd
  next =>
    rw [Except.ok.injEq] at hadd
    subst hadd
    exact hold hf
  next ds hds =>
    obtain ⟨⟨fs, b⟩, hr, hadd⟩ := bind_eq_ok.1 hadd
    rw [pure_eq_ok] at hadd
    subst hadd
    rcases List.mem_append.1 hf with hf | hf
    · exact hold hf
    · refine (buildDeclarations_quiet hr hq f hf).mono (.refl _) fun d hd => ?_
      exact List.mem_flatMap.2 ⟨(text, file), hmem, by simpa [hds] using hd⟩

/-- The codes of the defects that no function has that is read without an error. -/
def readCodes : List String := "E_CFG_UNKNOWN_CAPTURE" :: "E_CFG_UNKNOWN_TYPE" :: Function.shapeCodes

theorem ReadFrom.code_notMem {t : TypeTable} {d : FunctionDecl} {f : Function} (h : ReadFrom t d f)
    {x : Defect} (hx : f.Flawed (some (TypeModel.build t)) x) : x.code ∉ readCodes := by
  have hshape := h.assembled.shaped.code_notMem hx
  rw [readCodes, List.mem_cons, List.mem_cons, not_or, not_or]
  cases hx with
  | unknownTempType hs hn hk ht hm hc =>
    obtain ⟨n, id, i, hn⟩ := h.assembled.standsAt_of_mem hs
    obtain rfl := Option.some.inj hm
    have hin := hn.typed ht
    exact absurd (hin.symm.trans hc) (by simp)
  | unknownBindingType hm hb hc =>
    obtain rfl := Option.some.inj hm
    have hin := h.assembled.boundIn.typed hb
    exact absurd (hin.symm.trans hc) (by simp)
  | unknownCapture hinner hname hb =>
    have hin := h.known _ hinner _ hname
    rw [hb] at hin
    cases hin
  | _ => exact ⟨by simp [Defect.code], by simp [Defect.code], hshape⟩

theorem ReadFrom.codes {t : TypeTable} {d : FunctionDecl} {f : Function} (h : ReadFrom t d f)
    {ds : List Diagnostic} (hds : f.validate (some (TypeModel.build t)) = .ok ds) :
    ∀ x ∈ ds, ∀ code ∈ readCodes, x.code ≠ some code := fun _ hx _ hcode =>
  Function.codes_of_validate (fun _ => by decide) (fun _ hd => h.code_notMem hd) hds hx hcode

/-- The sites in the order of the blocks as they are written. -/
def writtenSites (f : Function) : List Site := f.blocks.entries.flatMap (·.2.sites)

/-- Without errors, every function at any depth is read as it is written, and it is well-shaped. -/
theorem ofTexts_wellShaped {texts : List (String × Option String)} {p : Program}
    (h : Program.ofTexts texts = .ok p) (hq : hasErrors p.diagnostics = false) :
    ∀ f ∈ p.functions, Everywhere (fun f =>
      (∃ d ∈ functionsOfTexts texts, f.name = d.name.text ∧
        List.Forall₂ BlockRead d.body.blocks f.blocks.entries) ∧
      ((writtenSites f).Perm f.allSites ∧
        (writtenSites f).map Site.id = (List.range f.allSites.length).map fun (n : ℕ) => (n : ℤ)) ∧
      (∀ name x, f.binding? name = some x →
        (x.isParam = false → x.captured = false → (f.declsOf name).length = 1) ∧
        (x.isParam = true → f.params.count name = 1 ∧ f.declsOf name = [])) ∧
      (∀ name ∈ f.params, ∃ x, f.binding? name = some x ∧ x.isParam = true) ∧
      (∀ id e, e ∈ f.edgesAt id → e.kind = .jump → f.LeadsToLabel e) ∧
      ((∃ ds, f.validate (some (TypeModel.build p.table)) = .ok ds) ↔
        Function.Describable (f.findings (some (TypeModel.build p.table)))) ∧
      ∀ ds, f.validate (some (TypeModel.build p.table)) = .ok ds →
        ∀ d ∈ ds, ∀ code ∈ readCodes, d.code ≠ some code) f := by
  intro f hf
  refine ((allRead_of_ofTexts h hq f hf).and (Program.declaredOnce h f hf)).imp ?_
  rintro g ⟨⟨d, hd, hread⟩, hdeclared⟩
  have hshaped := hread.assembled.shaped
  have hsignature := hread.assembled.boundIn.signature
  have hblocks : List.Forall₂ BlockRead d.body.blocks g.blocks.entries := by
    obtain ⟨labels, dangling, -, -, hfilled⟩ := hread.assembled.blocks
    exact hfilled.read
  refine ⟨⟨d, hd, hread.named, hblocks⟩, ⟨(Assembled.allSites_perm g).symm, hread.assembled.ids⟩,
    fun name x hx => ⟨fun hparam hcap => ?_, fun hparam => ⟨?_, ?_⟩⟩, fun name hn => hshaped.params hn,
    fun id e he hk => hshaped.jump he hk, hshaped.exists_validate_iff, fun ds hds => hread.codes hds⟩
  · obtain ⟨s, hs⟩ := hdeclared.declsOf_eq hshaped.ids hx hparam (hsignature.notMem_captures hx hcap)
    rw [hs, List.length_singleton]
  · exact hdeclared.count_params hsignature hx hparam
  · exact hdeclared.declsOf_param hx hparam

/-- The second text uses a type of the first. Its blocks are not written in the order of their numbers,
and one of its jumps has no label to go to. -/
def crossTexts : List (String × Option String) :=
  [("type Str opaque move_ctor drop struct Pair { name: Str, next: *Pair }", some "lib"),
    ("fn f(p: moveref Pair forward, q: ref Str) { block 5: decl t: Str read t jump out block 2 out: move temp &Str -> assign t jump nowhere scope t: 5 2 fn g(x: Str) captures (p, t) { block 7: decl y: Pair move y.name -> return ret } }",
      none)]

theorem wellShaped_crossTexts :
    ∃ p f g, Program.ofTexts crossTexts = .ok p ∧ hasErrors p.diagnostics = false ∧ f ∈ p.functions ∧
      g ∈ f.nested ∧ f.allSites.map Site.id = [2, 0, 1] ∧ (writtenSites f).map Site.id = [0, 1, 2] ∧
      (∀ id e, e ∈ f.edgesAt id → e.kind = .jump → f.LeadsToLabel e) ∧
      ∃ ds, g.validate (some (TypeModel.build p.table)) = .ok ds ∧
        ∀ d ∈ ds, ∀ code ∈ readCodes, d.code ≠ some code := by
  have hfacts : (Program.ofTexts crossTexts).map (fun p => (hasErrors p.diagnostics,
      p.functions.map fun f => (f.allSites.map Site.id, f.nested.map fun g =>
        (g.validate (some (TypeModel.build p.table))).isOk))) = .ok (false, [([2, 0, 1], [true])]) := by
    decide +kernel
  obtain ⟨p, hp, hfacts⟩ := map_eq_ok.1 hfacts
  obtain ⟨hq, hfunctions⟩ := Prod.mk.injEq .. ▸ hfacts
  obtain ⟨f, hf, hsites⟩ := List.map_eq_singleton_iff.1 hfunctions
  obtain ⟨hids, hnested⟩ := Prod.mk.injEq .. ▸ hsites
  obtain ⟨g, hg, hvalid⟩ := List.map_eq_singleton_iff.1 hnested
  have hfmem : f ∈ p.functions := hf ▸ List.mem_singleton_self f
  have hgmem : g ∈ f.nested := hg ▸ List.mem_singleton_self g
  have hall := ofTexts_wellShaped hp hq f hfmem
  have hlength : f.allSites.length = 3 := by
    have := congrArg List.length hids
    rwa [List.length_map] at this
  have hnumbered := hall.here.2.1.2
  rw [hlength] at hnumbered
  have hds := eq_ok_of_isOk hvalid
  exact ⟨p, f, g, hp, hq, hfmem, hgmem, hids, hnumbered, hall.here.2.2.2.2.1, _, hds,
    (hall.inside hgmem).here.2.2.2.2.2.2 _ hds⟩

end Text
end MovePlan
