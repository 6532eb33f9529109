import MovePlan.Proofs.Text.Produced

set_option autoImplicit false

namespace MovePlan
namespace Text

structure IsName (s : String) : Prop where
  nonempty : s ≠ ""
  chars : ∀ c ∈ s.toList, isNameChar c = true

theorem length_of_scan? {expected : List Terminal} {cs : List Char} {n : ℕ}
    (h : scan? expected cs = some (.name, n)) :
    ∃ c rest, cs = c :: rest ∧ isLetter c = true ∧ n = (cs.takeWhile isNameChar).length := by
  cases cs with
  | nil => cases h
  | cons c rest =>
  rw [scan?] at h
  split at h
  next hletter =>
    refine ⟨c, rest, rfl, hletter, ?_⟩
    split at h
    · dsimp only at h
      split at h
      · split at h
        · cases h
        · exact (congrArg Prod.snd (Option.some.inj h)).symm
      · exact (congrArg Prod.snd (Option.some.inj h)).symm
    · obtain ⟨_, _, h⟩ := Option.map_eq_some_iff.1 h
      cases h
  next =>
    split at h
    · split at h <;> cases h
    · obtain ⟨_, _, h⟩ := Option.map_eq_some_iff.1 h
      cases h

theorem isName_of_readToken {expected : List Terminal} {last : Token} {cursor : Cursor} {h : Head}
    (hread : readToken expected last cursor = .ok h) (hname : h.token.terminal = .name) :
    IsName h.token.text := by
  rw [readToken] at hread
  dsimp only at hread
  generalize skipBlanks false cursor.rest cursor.line cursor.column = cur at hread
  split at hread
  · rw [Except.ok.injEq] at hread
    subst hread
    cases hname
  · split at hread
    next terminal length hscan =>
      rw [Except.ok.injEq] at hread
      subst hread
      obtain rfl : terminal = .name := hname
      obtain ⟨c, rest, hrest, hletter, rfl⟩ := length_of_scan? hscan
      -- the characters of the token are the longest beginning of name characters
      have htake : cur.rest.take (cur.rest.takeWhile isNameChar).length = cur.rest.takeWhile isNameChar :=
        (List.prefix_iff_eq_take.1 (List.takeWhile_prefix isNameChar)).symm
      have hchar : isNameChar c = true := by rw [isNameChar, hletter, Bool.true_or]
      change IsName (String.ofList (cur.rest.take (cur.rest.takeWhile isNameChar).length))
      rw [htake]
      refine ⟨fun hempty => ?_, fun d hd => ?_⟩
      · have hnil := congrArg String.toList hempty
        rw [String.toList_ofList, hrest, List.takeWhile_cons_of_pos hchar] at hnil
        cases hnil
      · rw [String.toList_ofList] at hd
        exact List.all_eq_true.1 List.all_takeWhile d hd
    next =>
      split at hread
      · cases hread
      · cases hread

theorem token_of_take {t : Terminal} {after : List Terminal} {h h' : Head} {token : Token}
    (htake : take t after h = .ok (token, h')) : token = h.token ∧ h.token.terminal = t := by
  rw [take] at htake
  split at htake
  next hat =>
    obtain ⟨_, _, htake⟩ := bind_eq_ok.1 htake
    rw [pure_eq_ok] at htake
    exact ⟨(congrArg Prod.fst htake).symm, of_decide_eq_true hat⟩
  next => cases htake

theorem isName_of_readFunction {fuel : ℕ} {h h' : Head} {d : FunctionDecl}
    (hread : readFunction fuel h = .ok (d, h')) : IsName d.name.text := by
  cases fuel with
  | zero => cases hread
  | succ fuel =>
  rw [readFunction] at hread
  obtain ⟨first, hpass, hread⟩ := bind_eq_ok.1 hread
  obtain ⟨⟨name, _⟩, hname, hread⟩ := bind_eq_ok.1 hread
  obtain ⟨_, _, hread⟩ := bind_eq_ok.1 hread
  obtain ⟨_, _, hread⟩ := bind_eq_ok.1 hread
  obtain ⟨_, _, hread⟩ := bind_eq_ok.1 hread
  obtain ⟨_, _, hread⟩ := bind_eq_ok.1 hread
  obtain ⟨_, _, hread⟩ := bind_eq_ok.1 hread
  obtain ⟨_, _, hread⟩ := bind_eq_ok.1 hread
  obtain ⟨_, _, hread⟩ := bind_eq_ok.1 hread
  rw [pure_eq_ok, Prod.mk.injEq] at hread
  obtain ⟨⟨token, _⟩, htoken, hname⟩ := bind_eq_ok.1 hname
  rw [pure_eq_ok, Prod.mk.injEq] at hname
  obtain ⟨rfl, hterminal⟩ := token_of_take htoken
  rw [← hread.1, FunctionDecl.name, ← hname.1]
  exact isName_of_readToken hpass hterminal

theorem ne_function_of_readTypeDecl {fuel : ℕ} {h h' : Head} {x : Declaration}
    (hread : readTypeDecl fuel h = .ok (x, h')) (d : FunctionDecl) : .function d ≠ x := by
  obtain ⟨_, _, hread⟩ := bind_eq_ok.1 hread
  obtain ⟨_, _, hread⟩ := bind_eq_ok.1 hread
  dsimp only at hread
  split at hread
  · cases hread
  obtain ⟨_, _, hread⟩ := bind_eq_ok.1 hread
  obtain ⟨_, _, hread⟩ := bind_eq_ok.1 hread
  rw [pure_eq_ok, Prod.mk.injEq] at hread
  rw [← hread.1]
  intro heq
  cases heq

theorem ne_function_of_readStructDecl {fuel : ℕ} {h h' : Head} {x : Declaration}
    (hread : readStructDecl fuel h = .ok (x, h')) (d : FunctionDecl) : .function d ≠ x := by
  obtain ⟨_, _, hread⟩ := bind_eq_ok.1 hread
  obtain ⟨_, _, hread⟩ := bind_eq_ok.1 hread
  obtain ⟨_, _, hread⟩ := bind_eq_ok.1 hread
  obtain ⟨_, _, hread⟩ := bind_eq_ok.1 hread
  obtain ⟨_, _, hread⟩ := bind_eq_ok.1 hread
  obtain ⟨_, _, hread⟩ := bind_eq_ok.1 hread
  rw [pure_eq_ok, Prod.mk.injEq] at hread
  rw [← hread.1]
  intro heq
  cases heq

theorem isName_of_readDeclarations {fuel : ℕ} {h : Head} {ds : List Declaration}
    (hread : readDeclarations fuel h = .ok ds) {d : FunctionDecl} (hd : Declaration.function d ∈ ds) :
    IsName d.name.text := by
  induction fuel generalizing h ds with
  | zero => cases hread
  | succ fuel ih =>
    -- one declaration, of whatever kind, and those after it
    have hcons : ∀ {α : Type} (first : Except ReadError (α × Head)) (wrap : α → Declaration),
        (∀ a h', first = .ok (a, h') → .function d = wrap a → IsName d.name.text) →
        (first >>= fun r => do return wrap r.1 :: (← readDeclarations fuel r.2)) = .ok ds →
        IsName d.name.text := by
      intro α first wrap hfirst hread
      obtain ⟨⟨a, h'⟩, ha, hread⟩ := bind_eq_ok.1 hread
      obtain ⟨rest, hrest, hread⟩ := bind_eq_ok.1 hread
      rw [pure_eq_ok] at hread
      rw [← hread] at hd
      exact (List.mem_cons.1 hd).elim (hfirst a h' ha) (ih hrest)
    rw [readDeclarations] at hread
    split at hread
    · rw [pure_eq_ok] at hread
      rw [← hread] at hd
      cases hd
    split at hread
    · apply hcons (readTypeDecl fuel h) id _ hread
      exact fun x _ hx heq => absurd heq (ne_function_of_readTypeDecl hx d)
    split at hread
    · apply hcons (readStructDecl fuel h) id _ hread
      exact fun x _ hx heq => absurd heq (ne_function_of_readStructDecl hx d)
    split at hread
    · apply hcons (readFunction fuel h) Declaration.function _ hread
      rintro f _ hf heq
      cases heq
      exact isName_of_readFunction hf
    · cases hread

theorem isName_of_readText {text : String} {ds : List Declaration} (hread : readText text = .ok ds)
    {d : FunctionDecl} (hd : Declaration.function d ∈ ds) : IsName d.name.text := by
  obtain ⟨_, _, hread⟩ := bind_eq_ok.1 hread
  exact isName_of_readDeclarations hread hd

section
variable {n : String} {f : Function}

theorem buildCaptures_name (parent : Option Function) (span : Span) {names : List String}
    (h : f.name = n) : Yields (fun g => g.name = n) (buildCaptures parent span names f) := by
  induction names generalizing f with
  | nil => exact Yields.pure h
  | cons name rest ih =>
    rw [buildCaptures]
    split
    · exact Yields.after fun _ => ih h
    · exact Yields.after fun _ => Yields.after fun _ => ih h

theorem buildParam_name (index : ℕ) (p : Parameter) (h : f.name = n) :
    Yields (fun g => g.name = n) (buildParam index p f) := by
  refine Yields.after fun type => Yields.ite (fun _ => Yields.after fun _ => Yields.pure h) fun _ => ?_
  refine Yields.ite (fun _ => ?_) fun _ => ?_
  · exact Yields.after fun _ => Yields.after fun _ => Yields.pure h
  · exact Yields.after fun _ => Yields.pure h

theorem buildParams_name (index : ℕ) {ps : List Parameter} (h : f.name = n) :
    Yields (fun g => g.name = n) (buildParams index ps f) := by
  induction ps generalizing index f with
  | nil => exact Yields.pure h
  | cons p rest ih => exact Yields.bind (buildParam_name index p h) fun _ hg => ih _ hg

theorem openBlocks_name {ds : List BlockDecl} {labels : List (String × BlockId)} (h : f.name = n) :
    Yields (fun r => r.1.name = n) (openBlocks ds f labels) := by
  induction ds generalizing f labels with
  | nil => exact Yields.pure h
  | cons d rest ih =>
    refine Yields.after fun id => ?_
    split
    · exact Yields.after fun _ => ih h
    · have hrest : ∀ labels', Yields (fun r => r.1.name = n) (do
          let span ← spanInFile d.span
          let r ← openBlocks rest
            { f with blocks := f.blocks.put id { label := d.label.map Name.text, span := span } } labels'
          return (r.1, r.2.1, (id, d.body) :: r.2.2)) := fun labels' =>
        Yields.after fun _ => Yields.bind (ih h) fun _ hr => Yields.pure hr
      split
      · exact hrest _
      · split
        · exact Yields.after fun _ => hrest _
        · exact hrest _

theorem Adds.name {r : Function × Option Site} (h : Adds f r) : r.1.name = f.name := by
  cases h <;> rfl

theorem buildStatements_name (id : BlockId) {statements : List Statement} {body : Body} {blk : Block}
    (h : body.function.name = n) :
    Yields (fun r => r.1.function.name = n) (buildStatements id statements body blk) := by
  induction statements generalizing body blk with
  | nil => exact Yields.pure h
  | cons st rest ih =>
    cases st with
    | ret => exact ih h
    | edge word dst => exact Yields.after fun _ => ih h
    | jump label => exact ih h
    | site s span => exact Yields.bind (buildSite_yields _ _ _ _ _ _) fun r hr => ih (hr.name.trans h)

theorem fillBlocks_name {kept : List (BlockId × List Statement)} {body : Body}
    (h : body.function.name = n) : Yields (fun r => r.function.name = n) (fillBlocks kept body) := by
  induction kept generalizing body with
  | nil => exact Yields.pure h
  | cons e rest ih => exact Yields.bind (buildStatements_name e.1 h) fun _ hr => ih hr

theorem buildScopes_name {ds : List ScopeDecl} (h : f.name = n) :
    Yields (fun g => g.name = n) (buildScopes ds f) := by
  induction ds generalizing f with
  | nil => exact Yields.pure h
  | cons d rest ih =>
    rw [buildScopes]
    split
    · exact Yields.after fun _ => ih h
    · split
      · exact Yields.after fun _ => ih h
      · exact Yields.after fun _ => ih h

end

theorem buildBody_name (parent : Option Function) (name : Name) (params : List Parameter)
    (captures : List String) (body : Members) (span : Span) :
    Yields (fun f => f.name = name.text) (buildBody parent name params captures body span) := by
  refine Yields.after fun ownSpan => ?_
  refine Yields.bind (buildCaptures_name parent span rfl) fun f hf => ?_
  refine Yields.bind (buildParams_name 0 hf) fun f hf => ?_
  refine Yields.bind (openBlocks_name hf) fun r hr => ?_
  obtain ⟨f, labels, kept⟩ := r
  refine Yields.bind (fillBlocks_name ?_) fun filled hfilled => buildScopes_name hfilled
  cases kept <;> exact hr

theorem buildFunction_name (parent : Option Function) (d : FunctionDecl) :
    Yields (fun f => f.name = d.name.text) (buildFunction parent d) := by
  cases d with
  | mk name params captures body span =>
    refine Yields.bind (buildBody_name parent name params captures body span) fun f hf => ?_
    exact Yields.after fun nested => Yields.pure hf

/-- The names of a text's functions are declared there, and no two of them are the same. -/
theorem buildFunctions_names (seen : List String) (ds : List Declaration) :
    Yields (fun fs => (fs.map Function.name).Nodup ∧
      ∀ f ∈ fs, f.name ∉ seen ∧ ∃ d, .function d ∈ ds ∧ f.name = d.name.text) (buildFunctions seen ds) := by
  induction ds generalizing seen with
  | nil => exact Yields.pure (by simp)
  | cons x rest ih =>
    have hskip : Yields (fun fs => (fs.map Function.name).Nodup ∧ ∀ f ∈ fs, f.name ∉ seen ∧
        ∃ d, .function d ∈ x :: rest ∧ f.name = d.name.text) (buildFunctions seen rest) := by
      intro b fs b' hfs
      obtain ⟨hnodup, hnames⟩ := ih seen b fs b' hfs
      refine ⟨hnodup, fun f hf => ?_⟩
      obtain ⟨hnew, d, hd, hname⟩ := hnames f hf
      exact ⟨hnew, d, List.mem_cons_of_mem _ hd, hname⟩
    cases x with
    | type name isScalar attributes span => exact hskip
    | struct name attributes fields span => exact hskip
    | function d =>
      refine Yields.bind (buildFunction_name none d) fun f hf => ?_
      refine Yields.ite (fun _ => Yields.after fun _ => hskip) fun hnew => ?_
      refine Yields.bind (ih _) fun others hothers => Yields.pure ⟨?_, ?_⟩
      · rw [List.map_cons, List.nodup_cons]
        refine ⟨fun hmem => ?_, hothers.1⟩
        obtain ⟨g, hg, hname⟩ := List.mem_map.1 hmem
        exact (hothers.2 g hg).1 (hname ▸ List.mem_cons_self)
      · refine List.forall_mem_cons.2 ⟨⟨hnew, d, List.mem_cons_self, hf⟩, fun g hg => ?_⟩
        obtain ⟨hseen, d', hd', hname⟩ := hothers.2 g hg
        exact ⟨fun hg' => hseen (List.mem_cons_of_mem _ hg'), d', List.mem_cons_of_mem _ hd', hname⟩

theorem buildDeclarations_names (ds : List Declaration) :
    Yields (fun fs => (fs.map Function.name).Nodup ∧
      ∀ f ∈ fs, ∃ d, .function d ∈ ds ∧ f.name = d.name.text) (buildDeclarations ds) := by
  refine Yields.after fun _ => Yields.after fun _ => Yields.after fun structs => Yields.after fun _ => ?_
  intro b fs b' hfs
  obtain ⟨hnodup, hnames⟩ := buildFunctions_names [] ds b fs b' hfs
  exact ⟨hnodup, fun f hf => (hnames f hf).2⟩

end Text

namespace Program

theorem isName {texts : List (String × Option String)} {p : Program} (h : ofTexts texts = .ok p) :
    ∀ f ∈ p.functions, Text.IsName f.name := by
  refine ofTexts_induction (P := fun p => ∀ f ∈ p.functions, Text.IsName f.name)
    (fun f hf => by cases hf) (fun {p p' _ _} hp hadd f hf => ?_) h
  rcases functions_of_addText hadd with heq | ⟨ds, fs, b, b', hds, hfs, heq⟩
  · exact hp f (heq ▸ hf)
  · rw [heq, List.mem_append] at hf
    refine hf.elim (hp f) fun hf => ?_
    obtain ⟨d, hd, hname⟩ := (Text.buildDeclarations_names ds b fs b' hfs).2 f hf
    rw [hname]
    exact Text.isName_of_readText hds hd

end Program
end MovePlan
