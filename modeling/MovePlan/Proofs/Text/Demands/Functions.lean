import MovePlan.Proofs.Text.Demands.Bound

set_option autoImplicit false

namespace MovePlan.Text
variable {ns : Names} {b : Assembly}

theorem hasBlock_put {f : Function} {id x : BlockId} {blk : Block} :
    ({ f with blocks := f.blocks.put id blk } : Function).hasBlock x = true ↔
      x = id ∨ f.hasBlock x = true := by
  simp only [Function.hasBlock, OrderedMap.contains, OrderedMap.get?_put]
  split
  next h => simp [h]
  next h => simp [h]

theorem meets_openBlocks (ds : List BlockDecl) {f : Function} {labels : List (String × BlockId)}
    {seen : List BlockId} (hready : Ready ns b.table) (hseen : ∀ id, f.hasBlock id = true ↔ id ∈ seen) :
    Meets ns (ds.map (.number ·.id)) (openBlocks ds f labels) b
      fun r _ => r.1.bindings = f.bindings ∧ r.2.2 = keptBodies seen ds := by
  induction ds generalizing f labels seen b with
  | nil => exact .pure hready ⟨rfl, rfl⟩
  | cons d rest ih =>
    rw [openBlocks, keptBodies, List.map_cons, ← List.singleton_append]
    refine (Meets.valueOf hready).bind fun id b' h _ hid => ?_
    subst hid
    split
    next hold =>
      rw [if_pos ((hseen _).1 hold)]
      exact (Meets.report h).after fun _ _ h _ _ => ih h hseen
    next hnew =>
      rw [if_neg fun hmem => hnew ((hseen _).2 hmem)]
      have hrest : ∀ (b' : Assembly) labels', Ready ns b'.table → Meets ns (rest.map (.number ·.id)) (do
          let span ← spanInFile d.span
          let r ← openBlocks rest
            { f with blocks := f.blocks.put (d.id.value : Int)
                       { label := d.label.map Name.text, span := span } } labels'
          return (r.1, r.2.1, ((d.id.value : Int), d.body) :: r.2.2)) b'
          fun r _ => r.1.bindings = f.bindings ∧
            r.2.2 = ((d.id.value : Int), d.body) :: keptBodies ((d.id.value : Int) :: seen) rest := by
        intro b' labels' h
        refine (Meets.spanInFile h).after fun span b'' h' _ _ => ?_
        have hseen' : ∀ (blk : Block) (x : BlockId),
            ({ f with blocks := f.blocks.put (d.id.value : Int) blk } : Function).hasBlock x = true ↔
              x ∈ (d.id.value : Int) :: seen := fun blk x => by rw [hasBlock_put, List.mem_cons, hseen]
        exact (ih h' (hseen' _)).before fun r _ h'' _ hr => .pure h'' ⟨hr.1, by rw [hr.2]⟩
      split
      · exact hrest b' labels h
      · split
        · exact (Meets.report h).after fun _ b'' h' _ _ => hrest b'' labels h'
        · exact hrest b' _ h

theorem meets_buildTarget (e : TargetExpr) (hready : Ready ns b.table) :
    Meets ns e.demands (buildTarget e) b fun _ _ => True := by
  cases e with
  | call callee index flags => exact (Meets.valueOf hready).before fun _ _ h _ _ => .pure h trivial
  | result flags => exact .pure hready trivial
  | assign dest => exact .pure hready trivial

theorem meets_buildSite {f : Function} {bound locals : List String} (id : ℕ) (block : BlockId)
    (index : ℕ) (span span' : Span) (s : SiteExpr) (hready : Ready ns b.table)
    (hf : Bound f bound locals) :
    Meets ns s.demands (buildSite f id block index span s) b
      fun r _ => Bound r.1 bound (locals ++ (Statement.local? (.site s span')).toList) := by
  have hsame : Bound f bound (locals ++ []) := by rwa [List.append_nil]
  have haccess : ∀ kind place, Meets ns [] (buildSite.access f id block index span kind place) b
      fun r _ => Bound r.1 bound (locals ++ []) := fun kind place =>
    (Meets.spanInFile hready).after fun _ _ h _ _ => .pure h hsame
  cases s with
  | decl name type =>
    refine (meets_resolveType type hready).before fun t b' hready' _ _ => ?_
    split
    next hold =>
      rw [OrderedMap.contains] at hold
      refine (Meets.report hready').after fun _ _ h _ _ =>
        .pure h (hf.congr rfl (fun _ => Iff.rfl) fun n hn => ?_)
      have hmem := (List.mem_append.1 (hf.isSome_iff.1 hold))
      rw [List.mem_append, or_iff_left_iff_imp]
      intro hname
      obtain rfl : n = name.text := by simpa [Statement.local?] using hname
      exact hmem.resolve_left hn
    next hfresh =>
      rw [OrderedMap.contains, Option.not_isSome_iff_eq_none] at hfresh
      exact (Meets.spanInFile hready').after fun _ _ h _ _ => .pure h (hf.put_local hfresh rfl rfl)
  | temp type target =>
    refine (meets_resolveType type hready).bind fun t b₁ h₁ _ _ => ?_
    refine (meets_buildTarget target h₁).before fun target b₂ h₂ _ _ => ?_
    exact (Meets.spanInFile h₂).after fun _ _ h _ _ => .pure h hsame
  | move flags place target =>
    refine (meets_buildTarget target hready).before fun target b₁ h₁ _ _ => ?_
    exact (Meets.spanInFile h₁).after fun _ _ h _ _ => .pure h hsame
  | read place => exact haccess .read place
  | write place => exact haccess .write place
  | addr place => exact haccess .addrOf place

theorem meets_buildStatements (id : BlockId) (statements : List Statement) {body : Body} (blk : Block)
    {bound locals : List String} (hready : Ready ns b.table) (hbody : Bound body.function bound locals) :
    Meets ns (statements.flatMap Statement.demands) (buildStatements id statements body blk) b
      fun r _ => Bound r.1.function bound (locals ++ statements.filterMap Statement.local?) := by
  induction statements generalizing body blk locals b with
  | nil => exact .pure hready (by simpa using hbody)
  | cons st rest ih =>
    rw [List.flatMap_cons]
    cases st with
    | ret => exact ih blk hready hbody
    | edge word dst => exact (Meets.valueOf hready).bind fun _ _ h _ _ => ih _ h hbody
    | jump label => exact ih _ hready hbody
    | site s span =>
      refine (meets_buildSite _ _ _ _ span s hready hbody).bind fun r b' h _ hr => ?_
      refine (ih _ h hr).imp fun g _ _ hg => ?_
      rw [List.filterMap_cons]
      cases hlocal : Statement.local? (.site s span) with
      | none => simpa [hlocal] using hg
      | some name => simpa [hlocal] using hg

theorem meets_fillBlocks (kept : List (BlockId × List Statement)) (body : Body)
    {bound locals : List String} (hready : Ready ns b.table) (hbody : Bound body.function bound locals) :
    Meets ns (kept.flatMap fun k => k.2.flatMap Statement.demands) (fillBlocks kept body) b
      fun r _ => Bound r.function bound
        (locals ++ kept.flatMap fun k => k.2.filterMap Statement.local?) := by
  induction kept generalizing body locals b with
  | nil => exact .pure hready (by simpa using hbody)
  | cons k rest ih =>
    rw [List.flatMap_cons]
    rw [fillBlocks]
    refine (meets_buildStatements k.1 k.2 _ hready hbody).bind fun r b' h _ hr => ?_
    have hput : Bound { r.1.function with blocks := r.1.function.blocks.put k.1 r.2 } bound
        (locals ++ k.2.filterMap Statement.local?) := hr.same rfl
    refine (ih { r.1 with function :=
      { r.1.function with blocks := r.1.function.blocks.put k.1 r.2 } } h hput).imp fun g _ _ hg => ?_
    rw [List.flatMap_cons]
    rwa [List.append_assoc] at hg

theorem meets_buildScopes (ds : List ScopeDecl) {f : Function} {bound locals : List String}
    (hready : Ready ns b.table) (hf : Bound f bound locals) :
    Meets ns (ds.flatMap (scopeDemands bound locals)) (buildScopes ds f) b
      fun g _ => Bound g bound locals := by
  induction ds generalizing f b with
  | nil => exact .pure hready hf
  | cons d rest ih =>
    rw [buildScopes, List.flatMap_cons, scopeDemands]
    have hname := hf d.name.text
    cases hx : f.binding? d.name.text with
    | none =>
      rw [hx, Option.map_none] at hname
      rw [if_neg]
      · exact (Meets.report hready).after fun _ _ h _ _ => ih h hf
      · rintro ⟨hbound, hlocal⟩
        rw [if_neg hbound, if_pos hlocal] at hname
        cases hname
    | some x =>
      rw [hx, Option.map_some] at hname
      dsimp only
      cases hsort : (x.isParam || x.captured) with
      | true =>
        rw [if_pos rfl, if_neg]
        · exact (Meets.report hready).after fun _ _ h _ _ => ih h hf
        · rintro ⟨hbound, hlocal⟩
          rw [hsort, if_neg hbound, if_pos hlocal] at hname
          cases hname
      | false =>
        rw [if_neg Bool.false_ne_true, if_pos]
        · refine (Meets.numbers d.blocks hready).bind fun region b' h _ _ => ?_
          exact ih h (hf.replace (y := { x with region := some region }) hx rfl rfl)
        · rw [hsort] at hname
          split at hname
          · cases hname
          next hbound =>
            split at hname
            next hlocal => exact ⟨hbound, hlocal⟩
            next => cases hname

theorem meets_buildBody {parent : Option Function} {outer : List String} (name : Name)
    (params : List Parameter) (captures : List String) (body : Members) (span : Span)
    (hready : Ready ns b.table)
    (hparent : ∀ n, (parent.bind fun p => p.binding? n).isSome = true ↔ n ∈ outer) :
    Meets ns (bodyDemands outer params captures body)
      (buildBody parent name params captures body span) b
      fun f _ => Bound f (boundNames params captures) body.locals := by
  simp only [bodyDemands, List.append_assoc]
  refine (Meets.spanInFile hready).after fun ownSpan b₀ h₀ _ _ => ?_
  have hstart : Opened { name := name.text, span := ownSpan, captures := captures } [] :=
    ⟨fun _ => rfl, rfl⟩
  refine (meets_buildCaptures span captures h₀ hparent hstart).bind fun f b₁ h₁ _ hf => ?_
  refine (meets_buildParams 0 params h₁ hf).bind fun g b₂ h₂ _ hg => ?_
  have hseen : ∀ id, g.hasBlock id = true ↔ id ∈ ([] : List BlockId) := by
    intro id
    rw [Function.hasBlock, hg.blocks]
    exact iff_of_false Bool.false_ne_true List.not_mem_nil
  refine (meets_openBlocks body.blocks h₂ hseen).bind fun r b₃ h₃ _ hr => ?_
  obtain ⟨opened, labels, kept⟩ := r
  obtain ⟨hbindings, rfl⟩ := hr
  have hopened : Bound opened (boundNames params captures) [] := hg.bound.same hbindings
  refine (meets_fillBlocks (keptBodies [] body.blocks) _ h₃ (hopened.same ?_)).bind fun filled b₄ h₄ _ hfilled => ?_
  · dsimp only
    split <;> rfl
  · exact meets_buildScopes body.scopes h₄ hfilled

mutual

theorem meets_buildFunction (parent : Option Function) (outer : List String) (d : FunctionDecl)
    {b : Assembly} (hready : Ready ns b.table)
    (hparent : ∀ n, (parent.bind fun p => p.binding? n).isSome = true ↔ n ∈ outer) :
    Meets ns (d.demands outer) (buildFunction parent d) b fun _ _ => True := by
  cases d with
  | mk name params captures body span =>
    rw [FunctionDecl.demands]
    refine (meets_buildBody name params captures body span hready hparent).bind fun f b' h _ hf => ?_
    refine (meets_buildNested body h fun n => ?_).before fun _ _ h _ _ => .pure h trivial
    exact hf.isSome_iff

theorem meets_buildNested {parent : Function} {outer : List String} (body : Members)
    {b : Assembly} (hready : Ready ns b.table)
    (hparent : ∀ n, (parent.binding? n).isSome = true ↔ n ∈ outer) :
    Meets ns (body.nestedDemands outer) (buildNested parent body) b fun _ _ => True := by
  cases body with
  | nil => exact .pure hready trivial
  | block d rest => exact meets_buildNested rest hready hparent
  | scope d rest => exact meets_buildNested rest hready hparent
  | nested f rest =>
    rw [Members.nestedDemands]
    refine (meets_buildFunction (some parent) outer f hready hparent).bind fun _ b₁ h₁ _ _ => ?_
    exact (meets_buildNested rest h₁ hparent).before fun _ _ h _ _ => .pure h trivial

end

theorem meets_buildFunctions (seen : List String) (ds : List Declaration) (hready : Ready ns b.table) :
    Meets ns (ds.flatMap Declaration.demands) (buildFunctions seen ds) b fun _ _ => True := by
  induction ds generalizing seen b with
  | nil => exact .pure hready trivial
  | cons d rest ih =>
    rw [List.flatMap_cons]
    cases d with
    | type name isScalar attributes span => exact ih seen hready
    | struct name attributes fields span => exact ih seen hready
    | function d =>
      refine (meets_buildFunction none [] d hready (by simp)).bind fun f b' h _ _ => ?_
      split
      · exact (Meets.report h).after fun _ _ h _ _ => ih seen h
      · exact (ih _ h).before fun _ _ h _ _ => .pure h trivial

end MovePlan.Text
