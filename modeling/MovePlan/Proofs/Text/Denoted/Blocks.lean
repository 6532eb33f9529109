import MovePlan.Proofs.Text.Denoted.Statements

set_option autoImplicit false

namespace MovePlan.Text
variable {file : Option String} {nominal : String → TypeDef} {w u : List TypeExpr}

/-- A block before its statements are read. -/
def blank (file : Option String) (b : BlockDecl) : BlockId × Block :=
  ((b.id.value : ℤ), { label := b.label.map Name.text, span := b.span.withFile file })

def labelsOf (bs : List BlockDecl) : List (String × BlockId) :=
  bs.filterMap fun b => b.label.map fun name => (name.text, (b.id.value : ℤ))

theorem labelsOf_cons (b : BlockDecl) (bs : List BlockDecl) : labelsOf (b :: bs) = labelsOf [b] ++ labelsOf bs :=
  List.filterMap_append (l := [b])

theorem map_fst_labelsOf (bs : List BlockDecl) :
    (labelsOf bs).map Prod.fst = bs.filterMap fun b => b.label.map Name.text := by
  rw [labelsOf, List.map_filterMap]
  refine List.filterMap_congr fun b _ => ?_
  rw [Option.map_map]
  rfl

theorem lastWrite_labelsOf {bs : List BlockDecl} (h : (bs.filterMap fun b => b.label.map Name.text).Nodup)
    (label : String) : lastWrite label (labelsOf bs) = labelTarget bs label := by
  induction bs with
  | nil => rfl
  | cons b bs ih =>
    rw [labelTarget, List.find?_cons]
    cases hlabel : b.label with
    | none =>
      rw [List.filterMap_cons, hlabel] at h
      rw [labelsOf, List.filterMap_cons, hlabel]
      exact ih h
    | some name =>
      rw [List.filterMap_cons, hlabel, Option.map_some, List.nodup_cons] at h
      have hcons : labelsOf (b :: bs) = (name.text, (b.id.value : ℤ)) :: labelsOf bs := by
        rw [labelsOf, List.filterMap_cons, hlabel]
        rfl
      rw [hcons, lastWrite_cons, ih h.2]
      by_cases hname : name.text = label
      · have hnone : labelTarget bs label = none := by
          rw [← ih h.2]
          cases hwrite : lastWrite label (labelsOf bs) with
          | none => rfl
          | some id =>
            have hmem := List.mem_map_of_mem (f := Prod.fst) (mem_of_lastWrite hwrite)
            rw [map_fst_labelsOf] at hmem
            exact absurd (hname ▸ hmem) h.1
        simp [hname, hnone]
      · have hother : ¬ some name.text = some label := fun heq => hname (Option.some.inj heq)
        simp only [Option.map_some, hother, decide_false, if_neg hname, Option.or_none]
        rfl

theorem run_openBlocks {bs : List BlockDecl} {f : Function} {labels : List (String × BlockId)} (b : Assembly)
    (hshort : Short (bs.map BlockDecl.id)) (hids : (bs.map fun d => (d.id.value : ℤ)).Nodup)
    (hblocks : ∀ d ∈ bs, (d.id.value : ℤ) ∉ f.blocks.keys)
    (hlabels : ((labels ++ labelsOf bs).map Prod.fst).Nodup) :
    openBlocks bs f labels b = .ok (({ f with blocks := f.blocks.putAll (bs.map (blank b.file)) },
      labels ++ labelsOf bs, bs.map fun d => ((d.id.value : ℤ), d.body)), b) := by
  induction bs generalizing f labels with
  | nil =>
    have hf : { f with blocks := f.blocks.putAll ([].map (blank b.file)) } = f := by
      cases f
      rfl
    rw [hf, labelsOf, List.filterMap_nil, List.append_nil]
    rfl
  | cons d bs ih =>
    rw [List.map_cons] at hshort hids
    rw [Short, List.forall_mem_cons] at hshort
    rw [List.nodup_cons] at hids
    rw [List.forall_mem_cons] at hblocks
    have hnew : ¬ f.hasBlock d.id.value = true := by
      rw [Function.hasBlock, OrderedMap.contains_iff]
      exact hblocks.1
    rw [labelsOf_cons, ← List.append_assoc] at hlabels ⊢
    have hrest : ∀ e ∈ bs, (e.id.value : ℤ) ∉ (f.blocks.put d.id.value (blank b.file d).2).keys := by
      intro e he hmem
      rw [OrderedMap.mem_keys_put] at hmem
      rcases hmem with hmem | hmem
      · exact hids.1 (hmem ▸ List.mem_map_of_mem he)
      · exact hblocks.2 e he hmem
    -- the block is opened with its own label, once this is seen to be new
    have hopen : ∀ {labels' : List (String × BlockId)}, labels' = labels ++ labelsOf [d] →
        openBlocks bs { f with blocks := f.blocks.put d.id.value (blank b.file d).2 } labels' b =
          .ok (({ f with blocks := f.blocks.putAll ((d :: bs).map (blank b.file)) },
            labels ++ labelsOf [d] ++ labelsOf bs, bs.map fun d => ((d.id.value : ℤ), d.body)), b) := by
      rintro _ rfl
      exact ih hshort.2 hids.2 hrest hlabels
    have hfresh : ∀ name, d.label = some name → ¬ (lastWrite name.text labels).isSome = true := by
      intro name hname hsome
      obtain ⟨id, hid⟩ := Option.isSome_iff_exists.1 hsome
      rw [List.append_assoc, List.map_append, List.nodup_append] at hlabels
      refine hlabels.2.2 name.text (List.mem_map_of_mem (mem_of_lastWrite hid)) name.text ?_ rfl
      rw [← labelsOf_cons, map_fst_labelsOf, List.filterMap_cons, hname]
      exact List.mem_cons_self
    refine run_bind.2 ⟨_, b, run_short hshort.1 b, ?_⟩
    rw [if_neg hnew]
    obtain ⟨id, label, statements, span⟩ := d
    cases label with
    | none =>
      exact run_bind.2 ⟨labels, b, rfl, run_bind.2 ⟨_, b, rfl,
        run_bind.2 ⟨_, b, hopen (List.append_nil labels).symm, rfl⟩⟩⟩
    | some name =>
      dsimp only
      rw [if_neg (hfresh name rfl)]
      exact run_bind.2 ⟨_, b, rfl, run_bind.2 ⟨_, b, rfl, run_bind.2 ⟨_, b, hopen rfl, rfl⟩⟩⟩

def statementsOf (bs : List BlockDecl) : List Statement := bs.flatMap BlockDecl.body

theorem run_fillBlocks (file : Option String) (hn : Nominal nominal) (hw : Listed w) {bs : List BlockDecl}
    (body : Body) {done : List (BlockId × Block)}
    (hblocks : body.function.blocks.entries = done ++ bs.map (blank file))
    (h : Fit (statementsOf bs) body.function.bindings u w) :
    ∃ filled blocks, fillBlocks (bs.map fun d => ((d.id.value : ℤ), d.body)) body (stage file nominal w u) =
        .ok (filled, stage file nominal w (grow u ((statementsOf bs).filterMap Statement.type?))) ∧
      filled.function = { body.function with
        blocks := blocks, bindings := body.function.bindings.putAll (localsOf file w (statementsOf bs)) } ∧
      blocks.entries = done ++ blocksFrom file w (fun label => lastWrite label body.labels) body.nextSite
        body.nextDangling bs := by
  induction bs generalizing u body done with
  | nil =>
    refine ⟨body, body.function.blocks, rfl, ?_, hblocks⟩
    cases body.function
    rfl
  | cons b bs ih =>
    rw [List.map_cons] at hblocks
    rw [statementsOf, List.flatMap_cons] at h ⊢
    obtain ⟨hb, hbs⟩ := h.append file
    have hget : (body.function.block? b.id.value).getD {} = (blank file b).2 := by
      have hmem : ((b.id.value : ℤ), (blank file b).2) ∈ body.function.blocks.entries :=
        hblocks ▸ List.mem_append_right _ List.mem_cons_self
      rw [Function.block?, (OrderedMap.get?_eq_some_iff _ _ _).2 hmem, Option.getD_some]
    have hnew : (b.id.value : ℤ) ∉ done.map Prod.fst := by
      have hnodup := body.function.blocks.nodup
      rw [hblocks, List.map_append, List.map_cons, List.nodup_append] at hnodup
      exact fun hmem => hnodup.2.2 _ hmem _ List.mem_cons_self rfl
    have hput : (body.function.blocks.put b.id.value (b.block file w (fun label => lastWrite label body.labels)
        body.nextSite body.nextDangling)).entries = done ++ [((b.id.value : ℤ), b.block file w
          (fun label => lastWrite label body.labels) body.nextSite body.nextDangling)] ++ bs.map (blank file) := by
      rw [List.append_assoc]
      exact (congrArg _ hblocks).trans (OrderedMap.putIn_middle hnew)
    obtain ⟨filled, blocks, hfill, hfilled, hentries⟩ := ih (u := grow u (b.body.filterMap Statement.type?))
      { body.after file w b.body with function := { (body.after file w b.body).function with
        blocks := body.function.blocks.put b.id.value (b.block file w (fun label => lastWrite label body.labels)
          body.nextSite body.nextDangling) } } hput hbs
    refine ⟨filled, blocks, ?_, ?_, ?_⟩
    · rw [List.filterMap_append, grow_append]
      refine run_bind.2 ⟨_, _, run_buildStatements hn hw b.id.value _ hb, ?_⟩
      rw [hget]
      exact hfill
    · rw [hfilled, localsOf_append, OrderedMap.putAll_append]
      rfl
    · rw [hentries, List.append_assoc]
      rfl

end MovePlan.Text
