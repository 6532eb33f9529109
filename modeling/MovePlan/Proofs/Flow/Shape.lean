import MovePlan.Proofs.Flow.Declared
import MovePlan.Proofs.Flow.Defects

set_option autoImplicit false

namespace MovePlan

/-- The edge was drawn to the block with its label, or past all blocks where there was none. -/
def DrawnTo (labels : List (String × BlockId)) (dangling : BlockId) (e : Edge) : Prop :=
  ∃ label, e.label = some label ∧ (lastWrite label labels = some e.dst ∨
    lastWrite label labels = none ∧ dangling ≤ e.dst)

theorem DrawnTo.mono {labels : List (String × BlockId)} {dangling dangling' : BlockId} {e : Edge}
    (h : DrawnTo labels dangling' e) (hle : dangling ≤ dangling') : DrawnTo labels dangling e := by
  obtain ⟨label, hl, h | ⟨hnone, hdst⟩⟩ := h
  · exact ⟨label, hl, .inl h⟩
  · exact ⟨label, hl, .inr ⟨hnone, hle.trans hdst⟩⟩

namespace Function
variable {f g : Function}

def labelAt (f : Function) (id : BlockId) : Option String := (f.block? id).bind Block.label

/-- The sites that start a lifetime of the binding. -/
def declsOf (f : Function) (name : String) : List Site := (f.sitesOf name).filter (·.kind = .decl)

/-- The edge leads to the only block with its label; where no block has the label, it leads nowhere. -/
def LeadsToLabel (f : Function) (e : Edge) : Prop :=
  ∃ label, e.label = some label ∧ ((∀ id, f.labelAt id = some label ↔ id = e.dst) ∨
    (∀ id, f.labelAt id ≠ some label) ∧ f.hasBlock e.dst = false)

structure Shaped (f : Function) : Prop where
  source : ∀ {id : BlockId} {e : Edge}, e ∈ f.edgesAt id → e.src = id
  jump : ∀ {id : BlockId} {e : Edge}, e ∈ f.edgesAt id → e.kind = .jump → f.LeadsToLabel e
  position : ∀ {id : BlockId} {i : ℕ} {s : Site}, (f.sitesAt id)[i]? = some s →
    s.block = id ∧ s.index = i
  ids : (f.allSites.map Site.id).Nodup
  temporary : ∀ {s : Site}, s ∈ f.allSites → s.binding = none →
    s.kind = .moveOut ∧ s.tempType.isSome = true
  target : ∀ {s : Site}, s ∈ f.allSites → s.kind = .moveOut → s.target.isSome = true
  params : ∀ {name : String}, name ∈ f.params → ∃ b, f.binding? name = some b ∧ b.isParam = true
  forwards : ∀ {i : ℤ}, i ∈ f.forwards → 0 ≤ i ∧ ∃ name b, f.params[i.toNat]? = some name ∧
    f.binding? name = some b ∧ b.mode = .moveRef

theorem block?_putBlock (f : Function) (id x : BlockId) (blk : Block) :
    ({ f with blocks := f.blocks.put id blk } : Function).block? x = if x = id then some blk else f.block? x :=
  OrderedMap.get?_put _ _ _ _

theorem labelAt_putBlock (f : Function) (id x : BlockId) (blk : Block) :
    ({ f with blocks := f.blocks.put id blk } : Function).labelAt x =
      if x = id then blk.label else f.labelAt x := by
  rw [labelAt, block?_putBlock]
  split
  · rfl
  · rfl

theorem labelAt_of_hasBlock {id : BlockId} (h : f.hasBlock id ≠ true) : f.labelAt id = none := by
  have hnone : f.block? id = none := Option.not_isSome_iff_eq_none.1 h
  rw [labelAt, hnone]
  rfl

/-- Where the labels are those of the blocks, whatever was drawn to them leads there. -/
theorem leadsToLabel {labels : List (String × BlockId)} {dangling : BlockId} {e : Edge}
    (hlabel : ∀ {label : String} {id : BlockId}, f.labelAt id = some label ↔ lastWrite label labels = some id)
    (hblock : ∀ {id : BlockId}, f.hasBlock id = true → id < dangling) (he : DrawnTo labels dangling e) :
    f.LeadsToLabel e := by
  obtain ⟨label, hl, hdst | ⟨hnone, hle⟩⟩ := he
  · refine ⟨label, hl, .inl fun id => ?_⟩
    rw [hlabel, hdst, Option.some.injEq, eq_comm]
  · refine ⟨label, hl, .inr ⟨fun id hid => ?_, ?_⟩⟩
    · rw [hlabel, hnone] at hid
      cases hid
    · rw [Bool.eq_false_iff]
      exact fun hhas => absurd (hblock hhas) (not_lt.2 hle)

/-- Parameters are what they are listed as, and so are forwarded positions and captured names. -/
structure SignatureFits (f : Function) : Prop where
  params : ∀ {name : String}, name ∈ f.params ↔
    ∃ x, f.binding? name = some x ∧ x.isParam = true
  forwards : ∀ {i : ℤ}, i ∈ f.forwards → 0 ≤ i ∧ ∃ name x,
    f.params[i.toNat]? = some name ∧ f.binding? name = some x ∧ x.mode = .moveRef
  captures : ∀ {name : String}, name ∈ f.captures →
    ∃ x, f.binding? name = some x ∧ x.isParam = false ∧ x.captured = true

theorem SignatureFits.congr (h : f.SignatureFits) (hparams : g.params = f.params)
    (hforwards : g.forwards = f.forwards) (hcap : g.captures = f.captures)
    {change : String → Binding → Binding}
    (hb : ∀ name, g.binding? name = (f.binding? name).map (change name))
    (hkeep : ∀ name x, (change name x).isParam = x.isParam ∧ (change name x).mode = x.mode ∧
      (x.captured = true → (change name x).captured = true)) : g.SignatureFits where
  params := by
    intro name
    rw [hparams, h.params, hb]
    constructor
    · rintro ⟨x, hx, hparam⟩
      exact ⟨change name x, by rw [hx]; rfl, (hkeep name x).1.trans hparam⟩
    · rintro ⟨y, hy, hparam⟩
      obtain ⟨x, hx, rfl⟩ := Option.map_eq_some_iff.1 hy
      exact ⟨x, hx, (hkeep name x).1.symm.trans hparam⟩
  forwards := by
    intro i hi
    rw [hforwards] at hi
    obtain ⟨h₀, name, x, hname, hx, hmode⟩ := h.forwards hi
    exact ⟨h₀, name, change name x, hparams ▸ hname, by rw [hb, hx]; rfl, (hkeep name x).2.1.trans hmode⟩
  captures := by
    intro name hn
    rw [hcap] at hn
    obtain ⟨x, hx, hparam, hc⟩ := h.captures hn
    exact ⟨change name x, by rw [hb, hx]; rfl, (hkeep name x).1.trans hparam, (hkeep name x).2.2 hc⟩

theorem SignatureFits.put (h : f.SignatureFits) {name : String} {x : Binding} (hfresh : f.binding? name = none)
    (hb : ∀ n, g.binding? n = if n = name then some x else f.binding? n)
    (hparams : g.params = f.params ++ if x.isParam then [name] else [])
    (hforwards : ∀ i ∈ g.forwards, i ∈ f.forwards ∨
      i = (f.params.length : ℤ) ∧ x.isParam = true ∧ x.mode = .moveRef)
    (hcap : g.captures = f.captures) : g.SignatureFits where
  params := by
    intro n
    rw [hparams, List.mem_append, h.params, hb]
    by_cases hn : n = name
    · subst hn
      cases hparam : x.isParam <;> simp [hparam, hfresh]
    · rw [if_neg hn, or_iff_left]
      intro hmem
      split at hmem
      · exact hn (List.mem_singleton.1 hmem)
      · simp at hmem
  forwards := by
    intro i hi
    rcases hforwards i hi with hi | ⟨rfl, hparam, hmode⟩
    · obtain ⟨h₀, n, y, hn, hy, hmode⟩ := h.forwards hi
      refine ⟨h₀, n, y, ?_, ?_, hmode⟩
      · rw [hparams, List.getElem?_append_left (List.getElem?_eq_some_iff.1 hn).1, hn]
      · rw [hb, if_neg, hy]
        rintro rfl
        rw [hfresh] at hy
        cases hy
    · refine ⟨Int.natCast_nonneg _, name, x, ?_, by rw [hb, if_pos rfl], hmode⟩
      rw [hparams, hparam, Int.toNat_natCast]
      exact List.getElem?_concat_length
  captures := by
    intro n hn
    rw [hcap] at hn
    obtain ⟨y, hy, hc⟩ := h.captures hn
    refine ⟨y, ?_, hc⟩
    rw [hb, if_neg, hy]
    rintro rfl
    rw [hfresh] at hy
    cases hy

theorem SignatureFits.same (h : f.SignatureFits) (hparams : g.params = f.params)
    (hforwards : g.forwards = f.forwards) (hcap : g.captures = f.captures)
    (hb : g.bindings = f.bindings) : g.SignatureFits := by
  have hmap : ∀ name, g.binding? name = (f.binding? name).map fun x => x := by
    intro name
    rw [binding?, hb, Option.map_id']
    rfl
  exact h.congr hparams hforwards hcap hmap fun _ _ => ⟨rfl, rfl, id⟩

theorem nodup_sitesAt (h : ∀ {id : BlockId} {i : ℕ} {s : Site}, (f.sitesAt id)[i]? = some s →
    s.block = id ∧ s.index = i) (id : BlockId) : (f.sitesAt id).Nodup := by
  rw [List.nodup_iff_getElem?_ne_getElem?]
  intro i j hij hj heq
  obtain ⟨s, hs⟩ : ∃ s, (f.sitesAt id)[j]? = some s := ⟨_, List.getElem?_eq_getElem hj⟩
  have hi := (h (heq.trans hs)).2
  have hj := (h hs).2
  omega

theorem nodup_allSites (h : ∀ {id : BlockId} {i : ℕ} {s : Site}, (f.sitesAt id)[i]? = some s →
    s.block = id ∧ s.index = i) : f.allSites.Nodup := by
  have hat : ∀ {p : BlockId × Block} {s : Site}, p ∈ f.sortedBlocks → s ∈ p.2.sites →
      f.sitesAt p.1 = p.2.sites ∧ s.block = p.1 := by
    intro p s hp hs
    have heq := sitesAt_eq (mem_sortedBlocks.1 hp)
    obtain ⟨i, hi⟩ := List.mem_iff_getElem?.1 (heq ▸ hs)
    exact ⟨heq, (h hi).1⟩
  rw [allSites, List.nodup_flatMap]
  constructor
  · intro p hp
    rw [← sitesAt_eq (mem_sortedBlocks.1 hp)]
    exact nodup_sitesAt h p.1
  · have hids : f.sortedBlocks.Pairwise fun p q => p.1 ≠ q.1 := List.pairwise_map.1 nodup_sortedIds
    refine hids.imp_of_mem fun hp hq hne s hsp hsq => hne ?_
    exact ((hat hp hsp).2).symm.trans (hat hq hsq).2

theorem nodup_ids (h : ∀ {id : BlockId} {i : ℕ} {s : Site}, (f.sitesAt id)[i]? = some s →
    s.block = id ∧ s.index = i)
    (hid : ∀ {s t : Site}, s ∈ f.allSites → t ∈ f.allSites → s.id = t.id → s = t) :
    (f.allSites.map Site.id).Nodup :=
  (nodup_allSites h).map_on fun _ hs _ ht heq => hid hs ht heq

theorem mem_declsOf {name : String} {s : Site} :
    s ∈ f.declsOf name ↔ s ∈ f.allSites ∧ s.binding = some name ∧ s.kind = .decl := by
  rw [declsOf, List.mem_filter, mem_sitesOf, decide_eq_true_eq, and_assoc]

theorem DeclaredOnce.declsOf_eq (h : f.DeclaredOnce) (hids : (f.allSites.map Site.id).Nodup)
    {name : String} {b : Binding} (hb : f.binding? name = some b) (hparam : b.isParam = false)
    (hcap : name ∉ f.captures) : ∃ s, f.declsOf name = [s] := by
  obtain ⟨s, hs, hn, hk⟩ := h.exists_decl hb hparam hcap
  have hnodup : (f.declsOf name).Nodup := ((hids.of_map _).filter _).filter _
  refine ⟨s, List.perm_singleton.1 ((List.perm_ext_iff_of_nodup hnodup (List.nodup_singleton s)).2 ?_)⟩
  intro t
  rw [mem_declsOf, List.mem_singleton]
  constructor
  · rintro ⟨ht, htn, htk⟩
    exact h.decl_unique ht hs htn htk hn hk
  · rintro rfl
    exact ⟨hs, hn, hk⟩

theorem SignatureFits.notMem_captures (h : f.SignatureFits) {name : String} {x : Binding}
    (hx : f.binding? name = some x) (hcap : x.captured = false) : name ∉ f.captures := by
  intro hn
  obtain ⟨y, hy, -, hc⟩ := h.captures hn
  rw [hx, Option.some.injEq] at hy
  rw [← hy, hcap] at hc
  cases hc

theorem DeclaredOnce.count_params (h : f.DeclaredOnce) (hsignature : f.SignatureFits) {name : String}
    {x : Binding} (hx : f.binding? name = some x) (hparam : x.isParam = true) : f.params.count name = 1 :=
  List.count_eq_one_of_mem h.params_nodup (hsignature.params.2 ⟨x, hx, hparam⟩)

theorem DeclaredOnce.declsOf_param (h : f.DeclaredOnce) {name : String} {b : Binding}
    (hb : f.binding? name = some b) (hparam : b.isParam = true) : f.declsOf name = [] := by
  rw [List.eq_nil_iff_forall_not_mem]
  intro s hs
  obtain ⟨hs, hn, hk⟩ := mem_declsOf.1 hs
  obtain ⟨b', hb', hlocal⟩ := h.binding_of_decl hs hn hk
  rw [hb, Option.some.injEq] at hb'
  rw [← hb', hparam] at hlocal
  cases hlocal

/-- The codes of the defects that the shape excludes. -/
def shapeCodes : List String :=
  ["E_CFG_EDGE_SRC", "E_CFG_JUMP_TARGET", "E_CFG_SITE_POSITION", "E_CFG_DUP_SITE", "E_CFG_TEMP_SITE",
    "E_CFG_MISSING_TARGET", "E_CFG_PARAM"]

theorem Shaped.forwardsInRange (h : f.Shaped) : f.forwardsInRange = true := by
  rw [Function.forwardsInRange, List.all_eq_true]
  intro i hi
  have := (h.forwards hi).1
  exact decide_eq_true (by omega)

theorem Shaped.code_notMem (h : f.Shaped) {model : Option TypeModel} {d : Defect}
    (hd : f.Flawed model d) : d.code ∉ shapeCodes := by
  cases hd with
  | edgeSource he hsrc => exact absurd (h.source he) hsrc
  | unlabeledTarget he hdst hk hl =>
    obtain ⟨label, -, hto | ⟨-, hmissing⟩⟩ := h.jump he hk
    · have hlabel := (hto _).2 rfl
      rw [labelAt, hdst, Option.bind_some, hl] at hlabel
      cases hlabel
    · rw [hasBlock_iff.2 ⟨_, hdst⟩] at hmissing
      cases hmissing
  | sitePosition hs hp =>
    obtain ⟨hblock, hindex⟩ := h.position hs
    rcases hp with hp | hp
    · exact absurd hblock hp
    · exact absurd hindex hp
  | duplicateSite hdup => exact absurd hdup (List.nodup_iff_forall_not_duplicate.1 h.ids _)
  | untypedTemporary hs hn hshape =>
    obtain ⟨hk, ht⟩ := h.temporary hs hn
    rcases hshape with hk' | ht'
    · exact absurd hk hk'
    · rw [ht'] at ht
      cases ht
  | missingTarget hs hk ht =>
    have hsome := h.target hs hk
    rw [ht] at hsome
    cases hsome
  | undeclaredParam hp hlocal =>
    obtain ⟨b, hb, hparam⟩ := h.params hp
    rw [hlocal b hb] at hparam
    cases hparam
  | forwardOutOfRange hi hlen =>
    obtain ⟨h₀, name, b, hname, -⟩ := h.forwards hi
    have hlt := (List.getElem?_eq_some_iff.1 hname).1
    omega
  | forwardNotMoveRef hi hlt hname hb hmode =>
    obtain ⟨h₀, name', b', hname', hb', hmode'⟩ := h.forwards hi
    rw [entryAt?, if_pos h₀, hname', Option.some.injEq] at hname
    subst hname
    rw [hb', Option.some.injEq] at hb
    exact absurd (hb ▸ hmode') hmode
  | _ => simp [Defect.code, shapeCodes]

theorem codes_of_validate {model : Option TypeModel} {codes : List String}
    (hentry : f.hasBlock f.entry = false → "E_CFG_NO_ENTRY" ∉ codes)
    (h : ∀ d, f.Flawed model d → d.code ∉ codes) {ds : List Diagnostic}
    (hds : f.validate model = .ok ds) {d : Diagnostic} (hd : d ∈ ds) {code : String} (hcode : code ∈ codes) :
    d.code ≠ some code := by
  obtain ⟨x, hx, hxd⟩ := mem_of_mapM (validate_eq_ok.1 hds).2 hd
  rw [(toDiagnostic_eq_ok hxd).2.2]
  intro heq
  obtain rfl : x.defect.code = code := Option.some.inj heq
  cases hf : f.hasBlock f.entry with
  | true => exact h _ ((reports_findings hf).1 ⟨x, hx, rfl⟩) hcode
  | false =>
    rw [findings_noEntry hf, List.mem_singleton] at hx
    subst hx
    exact hentry hf hcode

/-- Validation of the shape answers just if all that it finds can be put into words. -/
theorem Shaped.exists_validate_iff (h : f.Shaped) {model : Option TypeModel} :
    (∃ ds, f.validate model = .ok ds) ↔ Describable (f.findings model) := by
  rw [Function.exists_validate_iff]
  exact and_iff_right fun _ => h.forwardsInRange

end Function
end MovePlan
