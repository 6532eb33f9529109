import MovePlan.Proofs.OrderedMap
import MovePlan.Proofs.Text.Listed

set_option autoImplicit false

namespace MovePlan.Text
variable {file : Option String} {nominal : String → TypeDef} {w u : List TypeExpr}

def Short (ns : List Numeral) : Prop := ∀ n ∈ ns, n.length ≤ Numeral.maxLength

theorem Short.append {ns ns' : List Numeral} (h : Short (ns ++ ns')) : Short ns ∧ Short ns' :=
  List.forall_mem_append.1 h

theorem run_short {n : Numeral} (hn : n.length ≤ Numeral.maxLength) (b : Assembly) :
    valueOf n b = .ok ((n.value : ℤ), b) := by
  have hvalue : n.value? = some n.value := by
    rw [Numeral.value?, Numeral.isTooLong, if_neg]
    simpa using hn
  exact run_valueOf.2 ⟨⟨n.value, hvalue, rfl⟩, rfl⟩

theorem run_mapM_valueOf {ns : List Numeral} (hns : Short ns) (b : Assembly) :
    ns.mapM valueOf b = .ok (ns.map fun n => (n.value : ℤ), b) := by
  induction ns with
  | nil => rfl
  | cons n ns ih =>
    rw [Short, List.forall_mem_cons] at hns
    rw [List.mapM_cons]
    exact run_bind.2 ⟨_, b, run_short hns.1 b, run_bind.2 ⟨_, b, ih hns.2, rfl⟩⟩

theorem run_buildTarget {t : TargetExpr} (ht : Short t.numerals) (b : Assembly) :
    buildTarget t b = .ok (t.target, b) := by
  cases t with
  | call callee index flags =>
    exact run_bind.2 ⟨_, b, run_short (ht index (List.mem_singleton_self _)) b, rfl⟩
  | result flags => rfl
  | assign dest => rfl

def localsOf (file : Option String) (w : List TypeExpr) (statements : List Statement) : List (String × Binding) :=
  (statements.filterMap Statement.declared?).map fun d => (d.1, localBinding file w [] d)

theorem run_buildSite (file : Option String) (hn : Nominal nominal) (hw : Listed w) {f : Function} (id : ℕ)
    (block : BlockId) (index : ℕ) (span : Span) {s : SiteExpr}
    (hshort : Short (Statement.site s span).numerals)
    (hbase : ∀ t ∈ s.type?, namedType t.base ∈ u) (hu : grow u s.type?.toList <+: w)
    (hfresh : ∀ d ∈ (Statement.site s span).declared?, d.1 ∉ f.bindings.keys) :
    buildSite f id block index span s (stage file nominal w u) =
      .ok (({ f with bindings := f.bindings.putAll (localsOf file w [.site s span]) },
        some (s.site file w id block index span)), stage file nominal w (grow u s.type?.toList)) := by
  -- only a declaration binds a name
  have hkeep : (Statement.site s span).declared? = none →
      { f with bindings := f.bindings.putAll (localsOf file w [.site s span]) } = f := by
    intro hnone
    have hlocals : localsOf file w [.site s span] = [] := by
      rw [localsOf, List.filterMap_cons, hnone]
      rfl
    rw [hlocals]
    cases f
    rfl
  cases s with
  | decl name type =>
    have hnew : ¬ f.bindings.contains name.text = true := by
      rw [OrderedMap.contains_iff]
      exact hfresh _ rfl
    refine run_bind.2 ⟨_, _, run_resolveType hn hw (hbase type rfl) hu, ?_⟩
    rw [if_neg hnew]
    rfl
  | temp type target =>
    rw [hkeep rfl]
    exact run_bind.2 ⟨_, _, run_resolveType hn hw (hbase type rfl) hu,
      run_bind.2 ⟨_, _, run_buildTarget hshort _, rfl⟩⟩
  | move flags place target =>
    rw [hkeep rfl]
    exact run_bind.2 ⟨_, _, run_buildTarget hshort _, rfl⟩
  | read place | write place | addr place =>
    rw [hkeep rfl]
    rfl

theorem localsOf_append (statements statements' : List Statement) :
    localsOf file w (statements ++ statements') = localsOf file w statements ++ localsOf file w statements' := by
  rw [localsOf, List.filterMap_append, List.map_append]
  rfl

theorem missing_append (target : String → Option BlockId) (statements statements' : List Statement) :
    missing target (statements ++ statements') = missing target statements + missing target statements' := by
  rw [missing, List.filterMap_append, List.countP_append]
  rfl

def Body.after (file : Option String) (w : List TypeExpr) (body : Body) (statements : List Statement) : Body :=
  { function := { body.function with bindings := body.function.bindings.putAll (localsOf file w statements) }
    labels := body.labels
    nextSite := body.nextSite + (statements.filterMap Statement.site?).length
    nextDangling := body.nextDangling + missing (fun label => lastWrite label body.labels) statements }

def filled (file : Option String) (w : List TypeExpr) (id : BlockId) (body : Body) (statements : List Statement)
    (blk : Block) : Block :=
  { blk with
    sites := blk.sites ++ sitesFrom file w id body.nextSite blk.sites.length statements
    edges := blk.edges ++ edgesFrom (fun label => lastWrite label body.labels) id body.nextDangling statements }

theorem Body.after_append (body : Body) (statements statements' : List Statement) :
    body.after file w (statements ++ statements') = (body.after file w statements).after file w statements' := by
  simp only [after, localsOf_append, OrderedMap.putAll_append, List.filterMap_append, List.length_append,
    missing_append, Nat.cast_add, add_assoc]

theorem sitesFrom_cons (block : BlockId) (id index : ℕ) (s : Statement) (rest : List Statement) :
    sitesFrom file w block id index (s :: rest) = sitesFrom file w block id index [s] ++
      sitesFrom file w block (id + ([s].filterMap Statement.site?).length)
        (index + ([s].filterMap Statement.site?).length) rest := by
  cases s <;> rfl

theorem length_sitesFrom (block : BlockId) (id index : ℕ) (s : Statement) :
    (sitesFrom file w block id index [s]).length = ([s].filterMap Statement.site?).length := by
  cases s <;> rfl

theorem edgesFrom_cons (target : String → Option BlockId) (src : BlockId) (next : ℤ) (s : Statement)
    (rest : List Statement) : edgesFrom target src next (s :: rest) =
      edgesFrom target src next [s] ++ edgesFrom target src (next + missing target [s]) rest := by
  cases s with
  | jump label => cases htarget : target label <;> simp [edgesFrom, missing, Statement.jump?, htarget]
  | site | edge | ret => simp [edgesFrom, missing, List.filterMap_cons, Statement.jump?]

theorem filled_cons (id : BlockId) (body : Body) (s : Statement) (rest : List Statement) (blk : Block) :
    filled file w id body (s :: rest) blk =
      filled file w id (body.after file w [s]) rest (filled file w id body [s] blk) := by
  simp only [filled, Body.after, List.length_append, length_sitesFrom, List.append_assoc, ← sitesFrom_cons,
    ← edgesFrom_cons]

theorem Body.after_of_edge {s : Statement} (body : Body) (hlocal : s.declared? = none) (hsite : s.site? = none)
    {next : ℤ} (hnext : body.nextDangling + (missing (fun label => lastWrite label body.labels) [s] : ℕ) = next) :
    body.after file w [s] = { body with nextDangling := next } := by
  have hlocals : localsOf file w [s] = [] := by
    rw [localsOf, List.filterMap_cons, hlocal]
    rfl
  rw [after, hlocals, List.filterMap_cons, hsite, hnext]
  obtain ⟨f, _, _, _⟩ := body
  cases f
  rfl

/-- What a function needs so that the statements of a block can be added to it. -/
structure Fit (statements : List Statement) (bindings : OrderedMap String Binding) (u w : List TypeExpr) : Prop where
  short : Short (statements.flatMap Statement.numerals)
  bases : ∀ t ∈ statements.filterMap Statement.type?, namedType t.base ∈ u
  types : grow u (statements.filterMap Statement.type?) <+: w
  names : ((statements.filterMap Statement.declared?).map Prod.fst).Nodup
  fresh : ∀ d ∈ statements.filterMap Statement.declared?, d.1 ∉ bindings.keys

theorem map_fst_localsOf (file : Option String) (w : List TypeExpr) (statements : List Statement) :
    (localsOf file w statements).map Prod.fst = (statements.filterMap Statement.declared?).map Prod.fst := by
  rw [localsOf, List.map_map]
  rfl

theorem Fit.append (file : Option String) {statements rest : List Statement} {bindings : OrderedMap String Binding}
    (h : Fit (statements ++ rest) bindings u w) : Fit statements bindings u w ∧
      Fit rest (bindings.putAll (localsOf file w statements)) (grow u (statements.filterMap Statement.type?)) w := by
  obtain ⟨hshort, hbases, htypes, hnames, hfresh⟩ := h
  rw [List.flatMap_append] at hshort
  rw [List.filterMap_append, List.forall_mem_append] at hbases hfresh
  rw [List.filterMap_append, grow_append] at htypes
  rw [List.filterMap_append, List.map_append, List.nodup_append] at hnames
  refine ⟨⟨hshort.append.1, hbases.1, (prefix_grow _ _).trans htypes, hnames.1, hfresh.1⟩,
    ⟨hshort.append.2, fun t ht => (prefix_grow _ _).subset (hbases.2 t ht), htypes, hnames.2.1, fun d hd hmem => ?_⟩⟩
  rw [OrderedMap.mem_keys_putAll, map_fst_localsOf] at hmem
  rcases hmem with hmem | hmem
  · exact hfresh.2 d hd hmem
  · exact hnames.2.2 _ hmem _ (List.mem_map_of_mem hd) rfl

/-- One statement is read, and the rest after it. -/
theorem run_buildStatement (hn : Nominal nominal) (hw : Listed w) (id : BlockId) {s : Statement} {body : Body}
    (blk : Block) (rest : List Statement) (h : Fit [s] body.function.bindings u w) :
    buildStatements id (s :: rest) body blk (stage file nominal w u) =
      buildStatements id rest (body.after file w [s]) (filled file w id body [s] blk)
        (stage file nominal w (grow u ([s].filterMap Statement.type?))) := by
  cases s with
  | ret =>
    have hbody : body.after file w [.ret] = body := body.after_of_edge rfl rfl (Int.add_zero _)
    have hfilled : filled file w id body [.ret] blk = blk := by simp [filled, sitesFrom, edgesFrom]
    rw [hbody, hfilled]
    rfl
  | edge word dst =>
    have hbody : body.after file w [.edge word dst] = body := body.after_of_edge rfl rfl (Int.add_zero _)
    have hfilled : filled file w id body [.edge word dst] blk =
        { blk with edges := blk.edges ++ [{ src := id, dst := (dst.value : ℤ), kind := word.kind }] } := by
      simp [filled, sitesFrom, edgesFrom]
    rw [hbody, hfilled]
    exact run_bind_of_ok (run_short (h.short dst (List.mem_singleton_self _)) _)
  | jump label =>
    have hnext : body.nextDangling + (missing (fun label => lastWrite label body.labels) [.jump label] : ℕ) =
        if (lastWrite label body.labels).isSome then body.nextDangling else body.nextDangling + 1 := by
      rw [missing, List.filterMap_cons]
      cases htarget : lastWrite label body.labels <;> simp [Statement.jump?, htarget]
    have hbody : body.after file w [.jump label] = _ := body.after_of_edge rfl rfl hnext
    have hfilled : filled file w id body [.jump label] blk = { blk with
        edges := blk.edges ++ [{ src := id, dst := (lastWrite label body.labels).getD body.nextDangling
                                 kind := .jump, label := some label }] } := by
      simp [filled, sitesFrom, edgesFrom]
    rw [hbody, hfilled]
    rfl
  | site s span =>
    have hbody : body.after file w [.site s span] = { body with
        function := { body.function with
          bindings := body.function.bindings.putAll (localsOf file w [.site s span]) }
        nextSite := body.nextSite + 1 } :=
      congrArg (fun next => Body.mk _ _ _ next) (Int.add_zero _)
    have hfilled : filled file w id body [.site s span] blk =
        { blk with sites := blk.sites ++ [s.site file w body.nextSite id blk.sites.length span] } := by
      simp [filled, sitesFrom, edgesFrom]
    have htypes : [Statement.site s span].filterMap Statement.type? = s.type?.toList := by
      rw [List.filterMap_cons, Statement.type?]
      cases s.type? <;> rfl
    obtain ⟨hshort, hbases, hgrown, -, hfresh⟩ := h
    rw [htypes] at hbases hgrown ⊢
    rw [List.flatMap_singleton] at hshort
    have hsite := run_buildSite file hn hw body.nextSite id blk.sites.length span hshort
      (fun t ht => hbases t (Option.mem_toList.2 ht)) hgrown
      fun d hd => hfresh d (List.mem_filterMap.2 ⟨_, List.mem_singleton_self _, hd⟩)
    rw [hbody, hfilled]
    exact run_bind_of_ok hsite

theorem run_buildStatements (hn : Nominal nominal) (hw : Listed w) (id : BlockId) {statements : List Statement}
    {body : Body} (blk : Block) (h : Fit statements body.function.bindings u w) :
    buildStatements id statements body blk (stage file nominal w u) =
      .ok ((body.after file w statements, filled file w id body statements blk),
        stage file nominal w (grow u (statements.filterMap Statement.type?))) := by
  induction statements generalizing u body blk with
  | nil =>
    have hbody : body.after file w [] = body := by
      obtain ⟨f, _, _, _⟩ := body
      cases f
      simp [Body.after, localsOf, missing, OrderedMap.putAll]
    have hblk : filled file w id body [] blk = blk := by simp [filled, sitesFrom, edgesFrom]
    rw [hbody, hblk]
    rfl
  | cons s rest ih =>
    have hsplit : s :: rest = [s] ++ rest := rfl
    rw [hsplit] at h
    obtain ⟨hs, hrest⟩ := h.append file
    have hafter : body.after file w (s :: rest) = (body.after file w [s]).after file w rest :=
      body.after_append [s] rest
    rw [run_buildStatement hn hw id blk rest hs, ih (filled file w id body [s] blk) hrest, hafter,
      filled_cons id body s rest blk, hsplit, List.filterMap_append, grow_append]

end MovePlan.Text
