import MovePlan.Proofs.Flow.Walk

set_option autoImplicit false

namespace MovePlan
namespace Function
variable {f g : Function}

/-- Every binding is kept under its own name. -/
def Keyed (f : Function) : Prop := ∀ {key : String} {b : Binding}, f.binding? key = some b → b.name = key

theorem keyed_iff : f.Keyed ↔ ∀ e ∈ f.bindings.entries, e.2.name = e.1 := by
  simp only [Keyed, binding?, OrderedMap.get?_eq_some_iff, Prod.forall]

instance (f : Function) : Decidable f.Keyed := decidable_of_iff _ keyed_iff.symm

structure DeclaredOnce (f : Function) : Prop where
  keyed : f.Keyed
  exists_decl : ∀ {name : String} {b : Binding}, f.binding? name = some b → b.isParam = false →
    name ∉ f.captures → ∃ s ∈ f.allSites, s.binding = some name ∧ s.kind = .decl
  decl_unique : ∀ {name : String} {s t : Site}, s ∈ f.allSites → t ∈ f.allSites →
    s.binding = some name → s.kind = .decl → t.binding = some name → t.kind = .decl → s = t
  binding_of_decl : ∀ {name : String} {s : Site}, s ∈ f.allSites → s.binding = some name →
    s.kind = .decl → ∃ b, f.binding? name = some b ∧ b.isParam = false
  param_region : ∀ {name : String} {b : Binding}, f.binding? name = some b → b.isParam = true →
    b.region = none
  params_nodup : f.params.Nodup
  params_bound : ∀ {name : String}, name ∈ f.params → (f.binding? name).isSome = true

theorem nodup_params_append (hnodup : f.params.Nodup)
    (hbound : ∀ {name : String}, name ∈ f.params → (f.binding? name).isSome = true) {name : String}
    (hfresh : f.binding? name = none) : (f.params ++ [name]).Nodup := by
  refine List.nodup_append.2 ⟨hnodup, by simp, fun n hn x hx heq => ?_⟩
  rw [List.mem_singleton.1 hx] at heq
  have hsome := hbound (heq ▸ hn)
  rw [hfresh] at hsome
  cases hsome

namespace DeclaredOnce

theorem of_no_sites (hsites : ∀ s, s ∉ f.allSites)
    (hb : ∀ {name : String} {b : Binding}, f.binding? name = some b →
      b.name = name ∧ b.region = none ∧ (b.isParam = false → name ∈ f.captures)) (hnodup : f.params.Nodup)
    (hbound : ∀ {name : String}, name ∈ f.params → (f.binding? name).isSome = true) :
    f.DeclaredOnce where
  keyed hn := (hb hn).1
  exists_decl hn hparam hcap := absurd ((hb hn).2.2 hparam) hcap
  decl_unique hs := absurd hs (hsites _)
  binding_of_decl hs := absurd hs (hsites _)
  param_region hn _ := (hb hn).2.1
  params_nodup := hnodup
  params_bound := hbound

theorem congr (h : f.DeclaredOnce) (hcap : g.captures = f.captures) (hparams : g.params = f.params)
    (hsites : ∀ {s : Site}, s.kind = .decl → (s ∈ g.allSites ↔ s ∈ f.allSites))
    (hb : ∀ {name : String} {x : Binding}, g.binding? name = some x →
      ∃ y, f.binding? name = some y ∧ y.name = x.name ∧ y.isParam = x.isParam ∧
        (x.isParam = true → x.region = y.region))
    (hb' : ∀ {name : String} {y : Binding}, f.binding? name = some y →
      ∃ x, g.binding? name = some x ∧ x.isParam = y.isParam) : g.DeclaredOnce where
  keyed := by
    intro name x hx
    obtain ⟨y, hy, hyx, _⟩ := hb hx
    exact hyx.symm.trans (h.keyed hy)
  exists_decl := by
    intro name x hx hparam hnot
    obtain ⟨y, hy, _, hyx, _⟩ := hb hx
    rw [hcap] at hnot
    obtain ⟨s, hs, hn, hk⟩ := h.exists_decl hy (hyx.trans hparam) hnot
    exact ⟨s, (hsites hk).2 hs, hn, hk⟩
  decl_unique := by
    intro name s t hs ht hsn hsk htn htk
    exact h.decl_unique ((hsites hsk).1 hs) ((hsites htk).1 ht) hsn hsk htn htk
  binding_of_decl := by
    intro name s hs hn hk
    obtain ⟨y, hy, hparam⟩ := h.binding_of_decl ((hsites hk).1 hs) hn hk
    obtain ⟨x, hx, hxy⟩ := hb' hy
    exact ⟨x, hx, hxy.trans hparam⟩
  param_region := by
    intro name x hx hparam
    obtain ⟨y, hy, _, hyx, hregion⟩ := hb hx
    exact (hregion hparam).trans (h.param_region hy (hyx.trans hparam))
  params_nodup := by rw [hparams]; exact h.params_nodup
  params_bound := by
    intro name hname
    rw [hparams] at hname
    obtain ⟨y, hy⟩ := Option.isSome_iff_exists.1 (h.params_bound hname)
    obtain ⟨x, hx, _⟩ := hb' hy
    rw [hx]
    rfl

theorem congr_sites (h : f.DeclaredOnce) (hcap : g.captures = f.captures)
    (hparams : g.params = f.params) (hb : g.bindings = f.bindings)
    (hsites : ∀ {s : Site}, s.kind = .decl → (s ∈ g.allSites ↔ s ∈ f.allSites)) : g.DeclaredOnce := by
  have hbinding : ∀ name, g.binding? name = f.binding? name := by
    intro name
    rw [binding?, binding?, hb]
  refine h.congr hcap hparams hsites (fun {name x} hx => ⟨x, ?_, rfl, rfl, fun _ => rfl⟩)
    fun {name y} hy => ⟨y, ?_, rfl⟩
  · rw [← hbinding, hx]
  · rw [hbinding, hy]

/-- No site of the function declares a name that is not bound. -/
theorem ne_of_decl (h : f.DeclaredOnce) {name n : String} (hfresh : f.binding? name = none) {s : Site}
    (hs : s ∈ f.allSites) (hn : s.binding = some n) (hk : s.kind = .decl) : n ≠ name := by
  rintro rfl
  obtain ⟨y, hy, -⟩ := h.binding_of_decl hs hn hk
  rw [hfresh] at hy
  cases hy

theorem decl_unique_put (h : f.DeclaredOnce) {name : String} (hfresh : f.binding? name = none)
    {decl : Option Site} (hdecl : ∀ d ∈ decl, d.binding = some name)
    (hsites : ∀ {s : Site}, s ∈ g.allSites ↔ s ∈ f.allSites ∨ s ∈ decl) {n : String} {s t : Site}
    (hs : s ∈ g.allSites) (ht : t ∈ g.allSites) (hsn : s.binding = some n) (hsk : s.kind = .decl)
    (htn : t.binding = some n) (htk : t.kind = .decl) : s = t := by
  have hnew : ∀ {s : Site}, s ∈ decl → s.binding = some n → n = name := fun hs hn =>
    Option.some.inj (hn.symm.trans (hdecl _ hs))
  rcases hsites.1 hs with hs | hs <;> rcases hsites.1 ht with ht | ht
  · exact h.decl_unique hs ht hsn hsk htn htk
  · exact absurd (hnew ht htn) (h.ne_of_decl hfresh hs hsn hsk)
  · exact absurd (hnew hs hsn) (h.ne_of_decl hfresh ht htn htk)
  · exact Option.mem_unique hs ht

theorem params_bound_put (h : f.DeclaredOnce) {name : String} {x : Binding}
    (hb : ∀ n, g.binding? n = if n = name then some x else f.binding? n)
    (hparams : g.params = f.params ++ if x.isParam then [name] else []) {n : String} (hn : n ∈ g.params) :
    (g.binding? n).isSome = true := by
  rw [hb]
  split
  next => rfl
  next hne =>
    rw [hparams, List.mem_append] at hn
    refine h.params_bound (hn.resolve_right fun hmem => ?_)
    split at hmem
    · exact hne (List.mem_singleton.1 hmem)
    · simp at hmem

theorem put (h : f.DeclaredOnce) (hcap : g.captures = f.captures) {name : String} {x : Binding}
    (hfresh : f.binding? name = none) (hname : x.name = name) (hregion : x.region = none)
    (hb : ∀ n, g.binding? n = if n = name then some x else f.binding? n)
    (hparams : g.params = f.params ++ if x.isParam then [name] else []) {decl : Option Site}
    (hdecl : ∀ d ∈ decl, d.binding = some name ∧ d.kind = .decl) (hlocal : decl.isSome = !x.isParam)
    (hsites : ∀ {s : Site}, s ∈ g.allSites ↔ s ∈ f.allSites ∨ s ∈ decl) : g.DeclaredOnce := by
  have hcases : ∀ {n : String} {y : Binding}, g.binding? n = some y →
      n = name ∧ y = x ∨ f.binding? n = some y := by
    intro n y hy
    rw [hb] at hy
    split at hy
    next heq => exact .inl ⟨heq, (Option.some.inj hy).symm⟩
    next => exact .inr hy
  constructor
  case keyed =>
    intro n y hy
    rcases hcases hy with ⟨rfl, rfl⟩ | hy
    · exact hname
    · exact h.keyed hy
  case exists_decl =>
    intro n y hy hparam hnot
    rcases hcases hy with ⟨rfl, rfl⟩ | hy
    · rw [hparam] at hlocal
      obtain ⟨d, hd⟩ := Option.isSome_iff_exists.1 hlocal
      exact ⟨d, hsites.2 (.inr hd), hdecl d hd⟩
    · obtain ⟨s, hs, hsn⟩ := h.exists_decl hy hparam (hcap ▸ hnot)
      exact ⟨s, hsites.2 (.inl hs), hsn⟩
  case decl_unique =>
    intro n s t hs ht hsn hsk htn htk
    exact h.decl_unique_put hfresh (fun d hd => (hdecl d hd).1) hsites hs ht hsn hsk htn htk
  case binding_of_decl =>
    intro n s hs hn hk
    rcases hsites.1 hs with hs | hs
    · rw [hb, if_neg (h.ne_of_decl hfresh hs hn hk)]
      exact h.binding_of_decl hs hn hk
    · rw [Option.isSome_iff_exists.2 ⟨s, hs⟩] at hlocal
      have hname : n = name := Option.some.inj (hn.symm.trans (hdecl s hs).1)
      exact ⟨x, by rw [hb, if_pos hname], by simpa using hlocal⟩
  case param_region =>
    intro n y hy hparam
    rcases hcases hy with ⟨rfl, rfl⟩ | hy
    · exact hregion
    · exact h.param_region hy hparam
  case params_nodup =>
    rw [hparams]
    split
    · exact nodup_params_append h.params_nodup h.params_bound hfresh
    · rw [List.append_nil]
      exact h.params_nodup
  case params_bound => exact fun {n} hn => h.params_bound_put hb hparams hn

end DeclaredOnce

theorem mem_allSites_congr (h : ∀ id, g.sitesAt id = f.sitesAt id) {s : Site} :
    s ∈ g.allSites ↔ s ∈ f.allSites := by
  simp only [mem_allSites, h]

theorem sites_getD_block (f : Function) (id : BlockId) :
    ((f.block? id).getD {}).sites = f.sitesAt id := by
  rw [sitesAt]
  cases f.block? id <;> rfl

theorem sitesAt_putBlock (f : Function) (id x : BlockId) (blk : Block) :
    ({ f with blocks := f.blocks.put id blk } : Function).sitesAt x =
      if x = id then blk.sites else f.sitesAt x := by
  rw [sitesAt, block?, OrderedMap.get?_put]
  split
  · rfl
  · rfl

theorem mem_allSites_append {id : BlockId} {new : List Site}
    (h : ∀ x, g.sitesAt x = if x = id then f.sitesAt id ++ new else f.sitesAt x) {s : Site} :
    s ∈ g.allSites ↔ s ∈ f.allSites ∨ s ∈ new := by
  simp only [mem_allSites, h]
  constructor
  · rintro ⟨x, hx⟩
    split at hx
    next => exact (List.mem_append.1 hx).imp_left fun hx => ⟨id, hx⟩
    next => exact .inl ⟨x, hx⟩
  · rintro (⟨x, hx⟩ | hnew)
    · refine ⟨x, ?_⟩
      split
      next heq => exact List.mem_append_left _ (heq ▸ hx)
      next => exact hx
    · exact ⟨id, by rw [if_pos rfl]; exact List.mem_append_right _ hnew⟩

end Function
end MovePlan
