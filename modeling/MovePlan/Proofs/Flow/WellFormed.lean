import MovePlan.Proofs.Flow.Declared
import MovePlan.Proofs.Flow.Defects

set_option autoImplicit false

namespace MovePlan
namespace Function
variable {f : Function} {model : Option TypeModel}

/-- The shape that the analyses rely on. -/
structure WellFormed (f : Function) : Prop where
  entry : f.hasBlock f.entry = true
  target : ∀ {id : BlockId} {e : Edge}, e ∈ f.edgesAt id → f.hasBlock e.dst = true
  block : ∀ {id : BlockId} {s : Site}, s ∈ f.sitesAt id → s.block = id
  index : ∀ {id : BlockId} {i : ℕ} {s : Site}, (f.sitesAt id)[i]? = some s → s.index = i
  ids : (f.allSites.map Site.id).Nodup
  binding : ∀ {s : Site} {name : String}, s ∈ f.allSites → s.binding = some name →
    ∃ b, f.binding? name = some b
  temporary : ∀ {s : Site}, s ∈ f.allSites → s.binding = none → s.kind = .moveOut
  moveTarget : ∀ {s : Site}, s ∈ f.allSites → s.kind = .moveOut → s.target.isSome = true
  params : ∀ {name : String}, name ∈ f.params → ∃ b, f.binding? name = some b ∧ b.isParam = true

/-- The types of the bindings and of the temporaries are those of a model. -/
structure Typed (f : Function) (m : TypeModel) : Prop where
  binding : ∀ {name : String} {b : Binding}, f.binding? name = some b → m.table.contains b.type = true
  temporary : ∀ {s : Site}, s ∈ f.allSites → s.binding = none →
    ∃ t, s.tempType = some t ∧ m.table.contains t = true

def DeclaredInside (f : Function) : Prop :=
  ∀ {s : Site} {name : String} {b : Binding}, s ∈ f.allSites → s.binding = some name →
    s.kind = .decl → f.binding? name = some b → b.inRegion s.block = true

/-- The paths of the accesses can be followed from the types of the bindings. -/
def Resolves (f : Function) (m : TypeModel) : Prop :=
  ∀ {s : Site} {name : String} {b : Binding}, s ∈ f.allSites → s.isAccess = true →
    s.binding = some name → f.binding? name = some b → ∃ p, m.resolvePath b.type s.path = .ok p

theorem wellFormed_of_unflawed (hentry : f.hasBlock f.entry = true) (h : ∀ d, ¬ f.Flawed model d) :
    f.WellFormed where
  entry := hentry
  target {id e} he := by
    by_contra hno
    have hdst : f.block? e.dst = none := Option.not_isSome_iff_eq_none.1 hno
    cases hl : e.label.filter (· ≠ "") with
    | none => exact h _ (.danglingEdge he hdst hl)
    | some label => exact h _ (.unknownLabel he hdst hl)
  block {id s} hs := by
    obtain ⟨i, hi⟩ := List.mem_iff_getElem?.1 hs
    by_contra hne
    exact h _ (.sitePosition hi (.inl hne))
  index hs := by
    by_contra hne
    exact h _ (.sitePosition hs (.inr hne))
  ids := List.nodup_iff_forall_not_duplicate.2 fun _ htwice => h _ (.duplicateSite htwice)
  binding hs hn := by
    by_contra hnone
    exact h _ (.unknownBinding hs hn (Option.eq_none_iff_forall_ne_some.2 fun b hb => hnone ⟨b, hb⟩))
  temporary hs hn := by
    by_contra hk
    exact h _ (.untypedTemporary hs hn (.inl hk))
  moveTarget hs hk := by
    by_contra ht
    exact h _ (.missingTarget hs hk (by simpa using ht))
  params {name} hp := by
    by_contra hnone
    refine h _ (.undeclaredParam hp fun b hb => ?_)
    by_contra hparam
    exact hnone ⟨b, hb, by simpa using hparam⟩

theorem typed_of_unflawed {m : TypeModel} (h : ∀ d, ¬ f.Flawed (some m) d) : f.Typed m := by
  have hcontains : ∀ {name : String} {b : Binding}, f.binding? name = some b →
      m.table.contains b.type = true := by
    intro name b hb
    by_contra hc
    exact h _ (.unknownBindingType rfl hb (by simpa using hc))
  refine ⟨hcontains, fun {s} hs hn => ?_⟩
  have hk : s.kind = .moveOut := by
    by_contra hk
    exact h _ (.untypedTemporary hs hn (.inl hk))
  cases ht : s.tempType with
  | none => exact absurd (.untypedTemporary hs hn (.inr ht)) (h _)
  | some t =>
    refine ⟨t, rfl, ?_⟩
    by_contra hc
    exact h _ (.unknownTempType hs hn hk ht rfl (by simpa using hc))

theorem wellFormed_of_validate {ds : List Diagnostic} (h : f.validate model = .ok ds)
    (hd : hasErrors ds = false) : f.WellFormed :=
  wellFormed_of_unflawed (entry_of_validate h hd) (unflawed_of_validate h hd)

theorem src_of_validate {ds : List Diagnostic} (h : f.validate model = .ok ds)
    (hd : hasErrors ds = false) {id : BlockId} {e : Edge} (he : e ∈ f.edgesAt id) : e.src = id := by
  by_contra hsrc
  exact unflawed_of_validate h hd _ (.edgeSource he hsrc)

theorem typed_of_validate {m : TypeModel} {ds : List Diagnostic}
    (h : f.validate (some m) = .ok ds) (hd : hasErrors ds = false) : f.Typed m :=
  typed_of_unflawed (unflawed_of_validate h hd)

-- the sites of a binding are validated by its own name, so what follows needs that to be its key

theorem declaredInside_of_validate (hkeyed : f.Keyed) {ds : List Diagnostic}
    (h : f.validate model = .ok ds) (hd : hasErrors ds = false) : f.DeclaredInside := by
  intro s name b hs hn hk hb
  by_contra hout
  exact unflawed_of_validate h hd _
    (.declOutsideRegion hb hs (by rw [hkeyed hb, hn]) hk (by simpa using hout))

theorem resolves_of_validate (hkeyed : f.Keyed) {m : TypeModel} {ds : List Diagnostic}
    (h : f.validate (some m) = .ok ds) (hd : hasErrors ds = false) : f.Resolves m := by
  intro s name b hs _ hn hb
  cases hp : m.resolvePath b.type s.path with
  | ok p => exact ⟨p, rfl⟩
  | error e =>
    exact absurd (.badPath rfl hb ((typed_of_validate h hd).binding hb) hs (by rw [hkeyed hb, hn]) hp)
      (unflawed_of_validate h hd _)

namespace WellFormed

theorem mem_sitesAt (wf : f.WellFormed) {s : Site} (h : s ∈ f.allSites) : s ∈ f.sitesAt s.block := by
  obtain ⟨id, hs⟩ := mem_allSites.1 h
  rwa [wf.block hs]

theorem id_inj (wf : f.WellFormed) {s t : Site} (hs : s ∈ f.allSites) (ht : t ∈ f.allSites)
    (h : s.id = t.id) : s = t :=
  List.inj_on_of_nodup_map wf.ids hs ht h

theorem split_unique (wf : f.WellFormed) {id : BlockId} {s : Site} {pre post pre' post' : List Site}
    (h : f.sitesAt id = pre ++ s :: post) (h' : f.sitesAt id = pre' ++ s :: post') :
    pre = pre' ∧ post = post' := by
  have hi : s.index = pre.length := wf.index (by rw [h]; simp)
  have hi' : s.index = pre'.length := wf.index (by rw [h']; simp)
  have hlen : pre.length = pre'.length := by exact_mod_cast hi.symm.trans hi'
  obtain ⟨hpre, hpost⟩ := List.append_inj (h.symm.trans h') hlen
  exact ⟨hpre, (List.cons.injEq _ _ _ _ ▸ hpost).2⟩

theorem block_of_between (wf : f.WellFormed) {a c : BlockId} {es : List Edge} {u s : Site}
    {before mid after : List TraceEvent} (hw : f.Walk a es c)
    (ht : f.trace a es = before ++ .pass u :: (mid ++ .pass s :: after)) :
    s.block = u.block ∨ .enter s.block ∈ mid := by
  have ht' : f.trace a es = (before ++ .pass u :: mid) ++ .pass s :: after := by simp [ht]
  obtain ⟨es₁, es₂, d, pre, post, rfl, _, _, hsites, hbefore, _⟩ := trace_split_pass hw ht'
  obtain rfl : s.block = d := wf.block (by simp [hsites])
  rcases List.append_eq_append_iff.1 hbefore with ⟨x, _, hx⟩ | ⟨x, _, hx⟩
  · -- the second block is entered after the first site
    rcases x with _ | ⟨y, x⟩
    · simp at hx
    · rw [List.cons_append, List.cons.injEq] at hx
      exact .inr (hx.2 ▸ by simp)
  · -- both sites stand in one block
    rcases x with _ | ⟨y, x⟩
    · simp at hx
    · rw [List.cons_append, List.cons.injEq] at hx
      have hu : TraceEvent.pass u ∈ pre.map .pass := by rw [hx.2]; simp
      obtain ⟨t, hmem, heq⟩ := List.mem_map.1 hu
      rw [TraceEvent.pass.injEq] at heq
      subst heq
      exact .inl (wf.block (by simp [hsites, hmem])).symm

theorem site?_eq (wf : f.WellFormed) {s : Site} (h : s ∈ f.allSites) : f.site? s.id = some s := by
  cases hf : f.site? s.id with
  | none =>
    rw [site?, List.find?_eq_none] at hf
    exact absurd (decide_eq_true rfl) (hf s h)
  | some t =>
    have hid : t.id = s.id := by simpa using List.find?_some hf
    rw [wf.id_inj (List.mem_of_find?_eq_some hf) h hid]

theorem leads_hasBlock (wf : f.WellFormed) {a b : BlockId} (ha : f.hasBlock a = true)
    (h : f.Leads a b) : f.hasBlock b = true := by
  obtain ⟨es, h⟩ := h
  induction es generalizing a with
  | nil => rw [walk_nil] at h; rwa [← h]
  | cons e es ih => exact ih (wf.target h.1) h.2

theorem reached (wf : f.WellFormed) {b : BlockId} (h : f.Leads f.entry b) : f.Reached b :=
  ⟨wf.leads_hasBlock wf.entry h, h⟩

end WellFormed
end Function
end MovePlan
