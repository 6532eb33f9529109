import MovePlan.Proofs.Flow.Events

set_option autoImplicit false

namespace MovePlan

/-- The scope number `k` of a stack, counted from the outermost. -/
def scopeAt (k : ℕ) (scopes : List OpenScope) : Option OpenScope := scopes.reverse[k]?

theorem scopeAt_cons {k : ℕ} {scopes : List OpenScope} (o : OpenScope) (hk : k < scopes.length) :
    scopeAt k (o :: scopes) = scopeAt k scopes := by
  rw [scopeAt, scopeAt, List.reverse_cons, List.getElem?_append_left (by simpa using hk)]

theorem scopeAt_length (o : OpenScope) (scopes : List OpenScope) :
    scopeAt scopes.length (o :: scopes) = some o := by
  rw [scopeAt, List.reverse_cons, ← List.length_reverse]
  exact List.getElem?_concat_length

theorem lt_of_scopeAt {k : ℕ} {scopes : List OpenScope} {o : OpenScope} (h : scopeAt k scopes = some o) :
    k < scopes.length := by
  have := (List.getElem?_eq_some_iff.1 h).1
  simpa using this

theorem mem_of_scopeAt {k : ℕ} {scopes : List OpenScope} {o : OpenScope} (h : scopeAt k scopes = some o) :
    o ∈ scopes :=
  List.mem_reverse.1 (List.mem_of_getElem? h)

theorem Widened.scopeAt {k : ℕ} {x y : List OpenScope} (h : Widened x y) {o : OpenScope}
    (ho : scopeAt k x = some o) :
    ∃ o', scopeAt k y = some o' ∧ o.blocks ⊆ o'.blocks ∧ o.locals ⊆ o'.locals :=
  exists_getElem?_of_forall₂ (List.forall₂_reverse_iff.2 h) ho

namespace Builder
variable {b b' : Builder}

theorem Primitive.site (h : Primitive True b b') (hb : b.Sound) {s : Site}
    (hs : s ∈ b'.function.allSites) : s ∈ b.function.allSites ∨ b.Holds s.block := by
  cases h with
  | openBlock => exact .inl ((Function.mem_allSites_congr (hb.built.tidy.sitesAt_openBlock none)).1 hs)
  | @label name _ =>
    exact .inl ((Function.mem_allSites_congr (hb.built.tidy.sitesAt_openBlock (some name))).1 hs)
  | @addEdge src dst kind _ _ _ =>
    exact .inl ((Function.mem_allSites_congr (sitesAt_addEdge src dst kind none b)).1 hs)
  | access hcurrent _ _ =>
    refine (mem_allSites_putSite.1 hs).imp_right ?_
    rintro rfl
    exact hb.placed _ hcurrent
  | declare type hcurrent _ =>
    refine (mem_allSites_putSite.1 hs).imp_right ?_
    rintro rfl
    exact hb.placed _ hcurrent
  | _ => exact .inl hs

theorem Grows.site (h : Grows True b b') (hb : b.Sound) {s : Site} (hs : s ∈ b'.function.allSites) :
    s ∈ b.function.allSites ∨ b'.Holds s.block := by
  induction h with
  | refl => exact .inl hs
  | tail hg hp ih =>
    rcases hp.site (hb.grows hg) hs with hs | hin
    · exact (ih hs).imp_right hp.grows.holds
    · exact .inr (hp.grows.holds hin)

theorem Primitive.binding (h : Primitive True b b') {x : String} {y : Binding}
    (hx : b.function.binding? x = some y) : b'.function.binding? x = some y ∧
      ((∀ o ∈ b.scopes, x ∉ o.locals) → ∀ o ∈ b'.scopes, x ∉ o.locals) := by
  have hput : ∀ {name : String} (z : Binding), b.function.binding? name = none →
      (b.function.bindings.put name z).get? x = some y := by
    intro name z hfresh
    rw [OrderedMap.get?_put, if_neg, ← hx, Function.binding?]
    rintro rfl
    rw [hfresh] at hx
    cases hx
  cases h with
  | openBlock =>
    refine ⟨hx, fun hnot o ho => ?_⟩
    obtain ⟨o', ho', rfl⟩ := List.mem_map.1 ho
    exact hnot o' ho'
  | label _ =>
    refine ⟨hx, fun hnot o ho => ?_⟩
    obtain ⟨o', ho', rfl⟩ := List.mem_map.1 ho
    exact hnot o' ho'
  | @declare id name type _ hfresh =>
    refine ⟨hput _ hfresh, fun hnot o ho hmem => ?_⟩
    obtain ⟨o', ho', -, hlocals⟩ := mem_scopes_putLocal name type ho
    rcases hlocals x hmem with hmem | rfl
    · exact hnot o' ho' hmem
    · rw [hfresh] at hx
      cases hx
  | param type hfresh _ => exact ⟨hput _ hfresh, id⟩
  | _ => exact ⟨hx, id⟩

theorem Grows.binding (h : Grows True b b') {x : String} {y : Binding}
    (hx : b.function.binding? x = some y) : b'.function.binding? x = some y ∧
      ((∀ o ∈ b.scopes, x ∉ o.locals) → ∀ o ∈ b'.scopes, x ∉ o.locals) := by
  induction h with
  | refl => exact ⟨hx, id⟩
  | tail _ hp ih =>
    have hp := hp.binding ih.1
    exact ⟨hp.1, fun hnot => hp.2 (ih.2 hnot)⟩

/-- The local lives in these blocks at least: as a local of an open scope, or for good. -/
def Lives (x : String) (k : ℕ) (blocks : List BlockId) (b : Builder) : Prop :=
  (∃ o, scopeAt k b.scopes = some o ∧ x ∈ o.locals ∧ blocks ⊆ o.blocks) ∨
  ∃ y r, b.function.binding? x = some y ∧ y.region = some r ∧ blocks ⊆ r ∧ ∀ o ∈ b.scopes, x ∉ o.locals

theorem Lives.grows {x : String} {k : ℕ} {blocks : List BlockId} (h : b.Lives x k blocks)
    (hg : Grows True b b') : b'.Lives x k blocks := by
  rcases h with ⟨o, ho, hx, hblocks⟩ | ⟨y, r, hy, hr, hblocks, hnot⟩
  · obtain ⟨o', ho', hwider, hlocals⟩ := hg.widened.scopeAt ho
    exact .inl ⟨o', ho', hlocals hx, List.Subset.trans hblocks hwider⟩
  · obtain ⟨hy', hnot'⟩ := hg.binding hy
    exact .inr ⟨y, r, hy', hr, hblocks, hnot' hnot⟩

theorem Lives.enter {x : String} {k : ℕ} {blocks : List BlockId} (h : b.Lives x k blocks)
    (first : BlockId) : (b.enter first).Lives x k blocks := by
  rcases h with ⟨o, ho, hx, hblocks⟩ | ⟨y, r, hy, hr, hblocks, hnot⟩
  · exact .inl ⟨o, (scopeAt_cons _ (lt_of_scopeAt ho)).trans ho, hx, hblocks⟩
  · refine .inr ⟨y, r, hy, hr, hblocks, fun o ho => ?_⟩
    rcases List.mem_cons.1 ho with rfl | ho
    · exact List.not_mem_nil
    · exact hnot o ho

theorem Lives.pop {x : String} {k : ℕ} {blocks : List BlockId} (h : b.Lives x k blocks) (hb : b.Sound) :
    b.popScope.Lives x k blocks := by
  cases hs : b.scopes with
  | nil =>
    rw [popScope, hs]
    exact h
  | cons top rest =>
    have hscopes : b.popScope.scopes = rest := by rw [scopes_popScope, hs, List.tail_cons]
    have hbinding := binding?_popScope hs x
    have hpair := hb.scopes.disjoint
    rw [hs, List.pairwise_cons] at hpair
    rcases h with ⟨o, ho, hx, hblocks⟩ | ⟨y, r, hy, hr, hblocks, hnot⟩
    · rw [hs] at ho
      rcases (Nat.lt_succ_iff.1 (lt_of_scopeAt ho)).lt_or_eq with hk | rfl
      · exact .inl ⟨o, by rw [hscopes, ← scopeAt_cons top hk, ho], hx, hblocks⟩
      · rw [scopeAt_length, Option.some.injEq] at ho
        subst ho
        obtain ⟨y, hy, -⟩ := hb.built.tidy.locals (hs ▸ List.mem_cons_self) hx
        rw [hy, Option.map_some, if_pos hx] at hbinding
        refine .inr ⟨_, top.blocks, hbinding, rfl, hblocks, fun o ho hmem => ?_⟩
        exact hpair.1 o (hscopes ▸ ho) hx hmem
    · rw [hs] at hnot
      rw [hy, Option.map_some, if_neg (hnot top List.mem_cons_self)] at hbinding
      exact .inr ⟨y, r, hbinding, hr, hblocks, fun o ho =>
        hnot o (List.mem_cons_of_mem _ (hscopes ▸ ho))⟩

end Builder
namespace Construction
variable {b b' : Builder} {p q : Progress} {k : ℕ}

theorem Turn.lives {x : String} {blocks : List BlockId} (h : Turn b b') (hb : b.Sound)
    (hx : b.Lives x k blocks) : b'.Lives x k blocks := by
  cases h with
  | grow hg => exact hx.grows hg
  | enter hg _ heq => exact heq ▸ (hx.grows hg).enter _
  | leave hg => exact (hx.pop hb).grows hg

theorem Turn.scopeAt (h : Turn b b') (hb : b.Sound) {o : OpenScope} (ho : scopeAt k b.scopes = some o)
    (hk : k < b'.scopes.length) : ∃ o', MovePlan.scopeAt k b'.scopes = some o' ∧ o.blocks ⊆ o'.blocks ∧
      ∀ s ∈ b'.function.allSites, s ∈ b.function.allSites ∨ s.block ∈ o'.blocks := by
  have hgrow : ∀ {c c' : Builder}, c.Sound → c.Grows True c' → MovePlan.scopeAt k c.scopes = some o →
      ∃ o', MovePlan.scopeAt k c'.scopes = some o' ∧ o.blocks ⊆ o'.blocks ∧
        ∀ s ∈ c'.function.allSites, s ∈ c.function.allSites ∨ s.block ∈ o'.blocks := by
    intro c c' hc hg ho
    obtain ⟨o', ho', hwider, -⟩ := hg.widened.scopeAt ho
    refine ⟨o', ho', hwider, fun s hs => ?_⟩
    exact (hg.site hc hs).imp_right fun hin => hin.scope o' (mem_of_scopeAt ho')
  cases h with
  | grow hg => exact hgrow hb hg ho
  | @enter c first hg _ heq =>
    obtain ⟨o', ho', hwider, hsites⟩ := hgrow hb hg ho
    subst heq
    exact ⟨o', (scopeAt_cons _ (lt_of_scopeAt ho')).trans ho', hwider, hsites⟩
  | leave hg =>
    have hlen := hg.widened.length_eq
    rw [Builder.scopes_popScope] at hlen
    obtain ⟨bindings, heq⟩ := b.popScope_eq
    have hsame : b.popScope.function.allSites = b.function.allSites := by rw [heq]; rfl
    rw [← hsame]
    refine hgrow hb.pop hg ?_
    rw [Builder.scopes_popScope]
    cases hs : b.scopes with
    | nil => simp [hs, MovePlan.scopeAt] at ho
    | cons top rest =>
      rw [hs] at ho hlen
      rw [List.tail_cons] at hlen ⊢
      rwa [← scopeAt_cons top (hlen ▸ hk)]

theorem run_append (before after : List Event) (p : Progress) :
    run (before ++ after) p = (run before p).bind (run after) := by
  induction before generalizing p with
  | nil => rfl
  | cons e rest ih =>
    rw [List.cons_append, run, run]
    cases step e p with
    | none => rfl
    | some q => exact ih q

theorem run_lives {x : String} {blocks : List BlockId} (events : List Event) (hp : Steady p)
    (h : run events p = some q) (hx : p.builder.Lives x k blocks) : q.builder.Lives x k blocks := by
  induction events generalizing p with
  | nil =>
    rw [run, Option.some.injEq] at h
    exact h ▸ hx
  | cons e rest ih =>
    rw [run] at h
    split at h
    next m hm =>
      obtain ⟨hturn, hsteady⟩ := step_advances e hp hm
      exact ih hsteady h (hturn.lives hp.sound hx)
    next => cases h

/-- The scope number `k` is open from here on, at every moment while the events go by. -/
def StaysOpen (k : ℕ) (events : List Event) (p : Progress) : Prop :=
  ∀ now later q, events = now ++ later → run now p = some q → k < q.builder.scopes.length

theorem run_scopeAt {o : OpenScope} (events : List Event) (hp : Steady p) (h : run events p = some q)
    (hopen : StaysOpen k events p) (ho : scopeAt k p.builder.scopes = some o) :
    ∃ o', scopeAt k q.builder.scopes = some o' ∧ o.blocks ⊆ o'.blocks ∧
      ∀ s ∈ q.builder.function.allSites, s ∈ p.builder.function.allSites ∨ s.block ∈ o'.blocks := by
  induction events generalizing p o with
  | nil =>
    rw [run, Option.some.injEq] at h
    subst h
    exact ⟨o, ho, List.Subset.refl _, fun s hs => .inl hs⟩
  | cons e rest ih =>
    rw [run] at h
    split at h
    next m hm =>
      obtain ⟨hturn, hsteady⟩ := step_advances e hp hm
      have hfirst : run [e] p = some m := by rw [run, hm]; rfl
      have hk := hopen [e] rest m rfl hfirst
      have hlater : StaysOpen k rest m := fun now later q' hsplit hq' =>
        hopen (e :: now) later q' (by rw [hsplit, List.cons_append]) (by rw [run, hm]; exact hq')
      obtain ⟨o₁, ho₁, hwider₁, hsites₁⟩ := hturn.scopeAt hp.sound ho hk
      obtain ⟨o₂, ho₂, hwider₂, hsites₂⟩ := ih hsteady h hlater ho₁
      refine ⟨o₂, ho₂, List.Subset.trans hwider₁ hwider₂, fun s hs => ?_⟩
      rcases hsites₂ s hs with hs | hin
      · exact (hsites₁ s hs).imp_right fun hin => hwider₂ hin
      · exact .inr hin
    next => cases h

theorem run_split {name : String} {captures : OrderedMap String TypeId} {before after : List Event}
    (h : run (before ++ after) (start name captures) = some p) :
    ∃ q, run before (start name captures) = some q ∧ Steady q ∧ run after q = some p := by
  rw [run_append, Option.bind_eq_some_iff] at h
  obtain ⟨q, hq, h⟩ := h
  exact ⟨q, hq, run_steady before (steady_start name captures) hq, h⟩

/-- When all constructs have been left, a local lives in its region. -/
theorem region_of_lives {x : String} {blocks : List BlockId} (hp : Steady p) (hclosed : p.frames = [])
    (h : p.builder.Lives x k blocks) : ∃ y region, p.builder.finish.function.binding? x = some y ∧
      y.region = some region ∧ blocks ⊆ region := by
  rcases h with ⟨o, ho, -⟩ | ⟨y, r, hy, hr, hblocks, -⟩
  · have hscopes : p.builder.scopes = [] := Framed.eq_nil (hclosed ▸ hp.framed)
    simp [hscopes, scopeAt] at ho
  · obtain ⟨change, hb, hkeep⟩ := p.builder.binding?_finish
    exact ⟨change x y, r, by rw [hb, hy]; rfl, (hkeep x y).2.2.1.trans hr, hblocks⟩

/-- A builder that has gone through a bracketed sequence of events makes a function of the right shape:
validation finds only what the caller got wrong, every local is declared once, and jumps lead to their
labels. At every moment the current block lies in all open scopes, so the sites that are added while a
scope is open lie in the region of each of its locals. -/
theorem run_wellShaped {name : String} {captures : OrderedMap String TypeId} {events : List Event}
    {p : Progress} (hrun : run events (start name captures) = some p) (hclosed : p.frames = []) :
    let f := p.builder.finish.function
    (∀ model, ((∃ ds, f.validate model = .ok ds) ↔ Function.Describable (f.findings model)) ∧
      ∀ ds, f.validate model = .ok ds → ∀ d ∈ ds, ∀ code ∈ Builder.finishedCodes, d.code ≠ some code) ∧
    (∀ n x, f.binding? n = some x →
      (x.isParam = false → x.captured = false ∨ n ∉ f.captures → (f.declsOf n).length = 1) ∧
      (x.isParam = true → f.params.count n = 1 ∧ f.declsOf n = [])) ∧
    (∀ id e, e ∈ f.edgesAt id → e.kind = .jump → f.LeadsToLabel e) ∧
    (∀ before after q, events = before ++ after → run before (start name captures) = some q →
      ∀ id, q.builder.current = some id → ∀ o ∈ q.builder.scopes, id ∈ o.blocks) ∧
    ∀ before during after q r k o n, events = before ++ during ++ after →
      run before (start name captures) = some q → run during q = some r → StaysOpen k during q →
      scopeAt k r.builder.scopes = some o → n ∈ o.locals → ∃ x region, f.binding? n = some x ∧
        x.region = some region ∧ ∀ s ∈ r.builder.function.allSites,
          s ∉ q.builder.function.allSites → s.block ∈ region := by
  intro f
  have hp := run_steady events (steady_start name captures) hrun
  have hdeclared : f.DeclaredOnce := hp.sound.built.tidy.finish.declared
  have hsignature : f.SignatureFits := Builder.signatureFits_finish hp.sound.signature
  refine ⟨fun model => ⟨hp.sound.shaped.exists_validate_iff, fun ds hds d hd code hcode =>
    hp.sound.codes_finish hds hd hcode⟩, fun n x hx => ⟨fun hparam hcap => ?_, fun hparam => ⟨?_, ?_⟩⟩,
    fun id e he hk => hp.sound.shaped.jump he hk, ?_, ?_⟩
  · have hnot : n ∉ f.captures :=
      hcap.elim (fun hcap => hsignature.notMem_captures hx hcap) id
    obtain ⟨s, hs⟩ := hdeclared.declsOf_eq hp.sound.shaped.ids hx hparam hnot
    rw [hs, List.length_singleton]
  · exact hdeclared.count_params hsignature hx hparam
  · exact hdeclared.declsOf_param hx hparam
  · intro before after q hsplit hq id hid
    exact ((run_steady before (steady_start name captures) hq).sound.placed id hid).scope
  · intro before during after q r k o n hsplit hq hr hopen ho hn
    subst hsplit
    obtain ⟨r', hr', hsteady, hafter⟩ := run_split hrun
    have hsame : r = r' := by
      rw [run_append, hq, Option.bind_some, hr, Option.some.injEq] at hr'
      exact hr'
    subst hsame
    have hlives : r.builder.Lives n k o.blocks := .inl ⟨o, ho, hn, List.Subset.refl _⟩
    obtain ⟨x, region, hx, hregion, hblocks⟩ :=
      region_of_lives hp hclosed (run_lives after hsteady hafter hlives)
    refine ⟨x, region, hx, hregion, fun s hs hnew => hblocks ?_⟩
    have hk := hopen [] during q rfl rfl
    obtain ⟨o₀, ho₀⟩ : ∃ o₀, scopeAt k q.builder.scopes = some o₀ :=
      ⟨_, List.getElem?_eq_getElem (by simpa using hk)⟩
    obtain ⟨o₁, ho₁, -, hsites⟩ :=
      run_scopeAt during (run_steady before (steady_start name captures) hq) hr hopen ho₀
    rw [ho, Option.some.injEq] at ho₁
    exact ho₁ ▸ (hsites s hs).resolve_left hnew

/-- An arm is entered twice and a name is declared twice. A loop ends by an error inside a scope, and the
second jump has no label to go to. -/
def brokenOff : List Event :=
  [.perform (.param "p" 2 .moveRef true), .enterBranch,
    .enterArm .onTrue, .perform (.declare "x" 2), .perform (.declare "p" 2), .perform (.jump "out"),
    .perform (.access .read "x"), .leave, .enterArm .onTrue, .leave, .leave,
    .enterLoop ["p"], .enterScope, .perform (.declare "y" 2), .perform (.breakLoop 0),
    .perform (.label "out"), .enterNested "g" ["y"], .leaveNested [.perform (.ret .value [.place "y"])],
    .abandon, .abandon, .perform (.moveOut (.place "p") (Target.returned .value) false false),
    .perform (.jump "nowhere")]

theorem wellShaped_brokenOff :
    ∃ p, run brokenOff (start "f" (OrderedMap.ofList [("c", 1)])) = some p ∧ p.frames = [] ∧
      (∃ x, p.builder.finish.function.binding? "x" = some x ∧ x.region = some [1, 3]) ∧
      (∃ ds, p.builder.finish.function.validate none = .ok ds) ∧
      (∀ model ds, p.builder.finish.function.validate model = .ok ds →
        ∀ d ∈ ds, ∀ code ∈ Builder.finishedCodes, d.code ≠ some code) ∧
      ∀ id e, e ∈ p.builder.finish.function.edgesAt id → e.kind = .jump →
        p.builder.finish.function.LeadsToLabel e := by
  have hfacts : (run brokenOff (start "f" (OrderedMap.ofList [("c", 1)]))).map (fun p =>
      (p.frames.isEmpty, (p.builder.finish.function.binding? "x").bind Binding.region,
        (p.builder.finish.function.validate none).isOk)) = some (true, some [1, 3], true) := by
    decide +kernel
  obtain ⟨p, hrun, hp⟩ := Option.map_eq_some_iff.1 hfacts
  simp only [Prod.mk.injEq] at hp
  obtain ⟨hempty, hregion, hvalid⟩ := hp
  have hclosed := List.isEmpty_iff.1 hempty
  have h := run_wellShaped hrun hclosed
  exact ⟨p, hrun, hclosed, Option.bind_eq_some_iff.1 hregion, ⟨_, eq_ok_of_isOk hvalid⟩,
    fun model => (h.1 model).2, h.2.2.1⟩

end Construction
end MovePlan
