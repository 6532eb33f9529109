import Mathlib.Order.BooleanAlgebra.Defs
import MovePlan.Analysis.LastUse
import MovePlan.Proofs.Flow.WellFormed

set_option autoImplicit false

namespace MovePlan
namespace Function
variable {f : Function} {name : String}

/-- Some walk passes a site that takes the address and later this site. -/
def AddressTakenBefore (f : Function) (name : String) (s : Site) : Prop :=
  ∃ a es c before u mid after, f.Walk a es c ∧
    f.trace a es = before ++ .pass u :: (mid ++ .pass s :: after) ∧ takesAddress name u = true

def AddressTakenAt (f : Function) (name : String) (id : BlockId) : Prop :=
  ∃ a, f.Leads a id ∧ ∃ u ∈ f.sitesAt a, takesAddress name u = true

theorem exposureStep_iff {exposed : BlockId → Bool} {id : BlockId} :
    f.exposureStep f.graph name exposed id = true ↔
      (∃ p ∈ f.graph.predsOf id, exposed p = true) ∨ ∃ u ∈ f.sitesAt id, takesAddress name u = true := by
  rw [exposureStep, Bool.or_eq_true, List.any_eq_true, List.any_eq_true]

theorem exposureStep_mono : Monotone (f.exposureStep f.graph name) := by
  intro x y h id
  rw [Bool.le_iff_imp, exposureStep_iff, exposureStep_iff]
  rintro (⟨p, hp, hx⟩ | hu)
  · exact .inl ⟨p, hp, Bool.le_iff_imp.1 (h p) hx⟩
  · exact .inr hu

theorem exposure_rounds (f : Function) (name : String) :
    ∃ n ≤ f.graph.order.length, ValueTable.Rounds false (f.exposureStep f.graph name) f.graph.order
      (.fill f.graph.order fun _ => false) n (f.exposure f.graph name) := by
  have hrank : StrictMono Bool.toNat := by
    intro x y h
    revert h
    cases x <;> cases y <;> simp
  have hmono : Monotone (f.exposureStep f.graph name) := exposureStep_mono
  have hkeys : ∀ k ∈ f.graph.order, k ∈ f.graph.order := fun _ hk => hk
  have hrounds := ValueTable.rounds_of_mono hrank Bool.toNat_le hmono Bool.false_le hkeys
    nodup_orderedBlocks
  rw [Nat.one_mul] at hrounds
  exact hrounds

theorem exposure_fixed {id : BlockId} (h : f.hasBlock id = true) :
    (f.exposure f.graph name).at? false id =
      f.exposureStep f.graph name ((f.exposure f.graph name).at? false) id := by
  obtain ⟨_, _, hrounds⟩ := f.exposure_rounds name
  exact hrounds.fixed (by simp) nodup_orderedBlocks id (mem_orderedBlocks.2 h)

theorem exposure_iff (wf : f.WellFormed) {id : BlockId} :
    (f.exposure f.graph name).at? false id = true ↔ f.AddressTakenAt name id := by
  constructor
  · let P : BlockId → Bool → Prop := fun id x => x = true → f.AddressTakenAt name id
    have closed : ∀ x : BlockId → Bool, (∀ k, P k (x k)) → ∀ k ∈ f.graph.order,
        P k (f.exposureStep f.graph name x k) := by
      intro x hx k _ h
      rcases exposureStep_iff.1 h with ⟨p, hp, hxp⟩ | hu
      · obtain ⟨a, ha, hu⟩ := hx p hxp
        obtain ⟨e, he, rfl⟩ := mem_successors.1 (mem_predsOf.1 hp).2
        exact ⟨a, ha.trans (leads_of_mem he), hu⟩
      · exact ⟨k, .refl k, hu⟩
    exact ValueTable.settle_induction (P := P) (fun _ h => by simp at h) (fun _ hk => hk) closed _ id
  · rintro ⟨a, ⟨es, hw⟩, hu⟩
    have ha : f.hasBlock a = true := hasBlock_of_mem_sitesAt hu.choose_spec.1
    induction es using List.reverseRecOn generalizing id with
    | nil =>
      rw [walk_nil] at hw
      subst hw
      rw [exposure_fixed ha, exposureStep_iff]
      exact .inr hu
    | append_singleton es e ih =>
      obtain ⟨p, hes, he, rfl⟩ := walk_snoc.1 hw
      rw [exposure_fixed (wf.target he), exposureStep_iff]
      exact .inl ⟨p, mem_predsOf.2 ⟨wf.target he, mem_successors.2 ⟨e, he, rfl⟩⟩, ih hes⟩

theorem mem_exposedIn_cons {exposed : Bool} {x : Site} {sites : List Site} {id : SiteId} :
    id ∈ exposedIn name exposed (x :: sites) ↔
      (x.id = id ∧ x.binding = some name ∧ x.isAccess = true ∧
        (exposed = true ∨ takesAddress name x = true)) ∨
      id ∈ exposedIn name (exposed || takesAddress name x) sites := by
  simp only [exposedIn]
  split
  next h =>
    simp only [Bool.and_eq_true, Bool.or_eq_true, decide_eq_true_eq] at h
    rw [List.mem_cons]
    exact or_congr_left ⟨fun hid => ⟨hid.symm, h.1.1, h.2, h.1.2⟩, fun hid => hid.1.symm⟩
  next h =>
    simp only [Bool.and_eq_true, Bool.or_eq_true, decide_eq_true_eq] at h
    refine (or_iff_right ?_).symm
    rintro ⟨_, hn, ha, he⟩
    exact h ⟨⟨hn, he⟩, ha⟩

theorem mem_exposedIn {exposed : Bool} {sites : List Site} {id : SiteId} :
    id ∈ exposedIn name exposed sites ↔ ∃ pre s post, sites = pre ++ s :: post ∧ s.id = id ∧
      s.binding = some name ∧ s.isAccess = true ∧
      (exposed = true ∨ (∃ u ∈ pre, takesAddress name u = true) ∨ takesAddress name s = true) := by
  induction sites generalizing exposed with
  | nil => simp [exposedIn]
  | cons x sites ih =>
    rw [mem_exposedIn_cons, ih, Bool.or_eq_true]
    constructor
    · rintro (⟨hid, hn, ha, he⟩ | ⟨pre, s, post, rfl, hid, hn, ha, he⟩)
      · exact ⟨[], x, sites, rfl, hid, hn, ha, he.elim .inl fun h => .inr (.inr h)⟩
      · refine ⟨x :: pre, s, post, rfl, hid, hn, ha, ?_⟩
        rcases he with (he | hx) | ⟨u, hu, ht⟩ | ht
        · exact .inl he
        · exact .inr (.inl ⟨x, List.mem_cons_self, hx⟩)
        · exact .inr (.inl ⟨u, List.mem_cons_of_mem _ hu, ht⟩)
        · exact .inr (.inr ht)
    · rintro ⟨pre, s, post, hsplit, hid, hn, ha, he⟩
      rcases pre with _ | ⟨y, pre⟩
      · rw [List.nil_append, List.cons.injEq] at hsplit
        obtain ⟨rfl, rfl⟩ := hsplit
        refine .inl ⟨hid, hn, ha, ?_⟩
        rcases he with he | ⟨u, hu, _⟩ | ht
        · exact .inl he
        · simp at hu
        · exact .inr ht
      · rw [List.cons_append, List.cons.injEq] at hsplit
        obtain ⟨rfl, rfl⟩ := hsplit
        refine .inr ⟨pre, s, post, rfl, hid, hn, ha, ?_⟩
        rcases he with he | ⟨u, hu, ht⟩ | ht
        · exact .inl (.inl he)
        · rcases List.mem_cons.1 hu with rfl | hu
          · exact .inl (.inr ht)
          · exact .inr (.inl ⟨u, hu, ht⟩)
        · exact .inr (.inr ht)

theorem leads_of_mem_walk {a b : BlockId} {es : List Edge} {e : Edge} (hw : f.Walk a es b)
    (he : e ∈ es) : ∃ p, f.Leads a p ∧ e ∈ f.edgesAt p ∧ f.Leads e.dst b := by
  obtain ⟨es₁, es₂, rfl⟩ := List.append_of_mem he
  obtain ⟨p, h₁, h₂⟩ := walk_append.1 hw
  exact ⟨p, ⟨es₁, h₁⟩, h₂.1, ⟨es₂, h₂.2⟩⟩

theorem addressTakenBefore_iff (wf : f.WellFormed) {s : Site} {pre post : List Site}
    (hs : f.sitesAt s.block = pre ++ s :: post) :
    f.AddressTakenBefore name s ↔ (∃ u ∈ pre, takesAddress name u = true) ∨
      ∃ p, s.block ∈ f.successors p ∧ f.AddressTakenAt name p := by
  constructor
  · rintro ⟨a, es, c, before, u, mid, after, hw, ht, hu⟩
    obtain ⟨es₁, es₂, d, pre', post', rfl, h₁, h₂, hsites, _, hafter⟩ := trace_split_pass hw ht
    have hud : u ∈ f.sitesAt d := by simp [hsites]
    have hmem : TraceEvent.pass s ∈ post'.map .pass ++ es₂.flatMap fun e => f.eventsAt e.dst := by
      rw [← hafter]
      simp
    rcases List.mem_append.1 hmem with hin | hin
    · -- both sites stand in one block
      obtain ⟨t, hmem', ht'⟩ := List.mem_map.1 hin
      rw [TraceEvent.pass.injEq] at ht'
      subst ht'
      obtain ⟨x, y, rfl⟩ := List.append_of_mem hmem'
      have hblock : t.block = d := wf.block (by simp [hsites])
      rw [← hblock] at hsites
      have hsplit : f.sitesAt t.block = (pre' ++ u :: x) ++ t :: y := by simp [hsites]
      obtain ⟨rfl, _⟩ := wf.split_unique hs hsplit
      exact .inl ⟨u, by simp, hu⟩
    · obtain ⟨e, he, hse⟩ := List.mem_flatMap.1 hin
      obtain ⟨p, hp, hep, _⟩ := leads_of_mem_walk h₂ he
      have hblock : s.block = e.dst := wf.block (mem_eventsAt_pass.1 hse)
      exact .inr ⟨p, mem_successors.2 ⟨e, hep, hblock.symm⟩, d, hp, u, hud, hu⟩
  · rintro (⟨u, hu, ht⟩ | ⟨p, hp, a, ⟨es, hw⟩, u, hua, ht⟩)
    · obtain ⟨x, y, rfl⟩ := List.append_of_mem hu
      refine ⟨s.block, [], s.block, .enter s.block :: x.map .pass, u, y.map .pass, post.map .pass, rfl,
        ?_, ht⟩
      rw [trace_nil, eventsAt, hs]
      simp
    · obtain ⟨e, he, hdst⟩ := mem_successors.1 hp
      obtain ⟨x, y, hsplit⟩ := List.append_of_mem hua
      refine ⟨a, es ++ [e], s.block, .enter a :: x.map .pass, u,
        y.map .pass ++ (es.flatMap fun e => f.eventsAt e.dst) ++ .enter s.block :: pre.map .pass,
        post.map .pass, walk_snoc.2 ⟨p, hw, he, hdst⟩, ?_, ht⟩
      rw [trace_snoc, hdst, trace, eventsAt, eventsAt, hs, hsplit]
      simp

theorem any_exposure_iff (wf : f.WellFormed) {id : BlockId} (hid : f.hasBlock id = true) :
    (f.graph.predsOf id).any ((f.exposure f.graph name).at? false) = true ↔
      ∃ p, id ∈ f.successors p ∧ f.AddressTakenAt name p := by
  rw [List.any_eq_true]
  constructor
  · rintro ⟨p, hp, hx⟩
    exact ⟨p, (mem_predsOf.1 hp).2, (exposure_iff wf).1 hx⟩
  · rintro ⟨p, hsucc, hx⟩
    exact ⟨p, mem_predsOf.2 ⟨hid, hsucc⟩, (exposure_iff wf).2 hx⟩

theorem mem_exposedSites (wf : f.WellFormed) {s : Site} (hs : s ∈ f.allSites)
    (hn : s.binding = some name) (ha : s.isAccess = true) :
    s.id ∈ f.exposedSites f.graph name ↔ takesAddress name s = true ∨ f.AddressTakenBefore name s := by
  obtain ⟨pre, post, hsplit⟩ := List.append_of_mem (wf.mem_sitesAt hs)
  have hblock : f.hasBlock s.block = true := hasBlock_of_mem_sitesAt (wf.mem_sitesAt hs)
  rw [addressTakenBefore_iff wf hsplit, exposedSites]
  split
  next hany =>
    rw [List.mem_flatMap]
    constructor
    · rintro ⟨e, he, hin⟩
      obtain ⟨pre', t, post', ht, hid, _, _, hexp⟩ := mem_exposedIn.1 hin
      have htmem : t ∈ f.sitesAt e.1 := by simp [ht]
      obtain rfl := wf.id_inj (mem_allSites.2 ⟨_, htmem⟩) hs hid
      have hblock' : t.block = e.1 := wf.block htmem
      rw [← hblock'] at ht hexp
      obtain ⟨rfl, rfl⟩ := wf.split_unique hsplit ht
      rcases hexp with hexp | hu | ht
      · exact .inr (.inr ((any_exposure_iff wf hblock).1 hexp))
      · exact .inr (.inl hu)
      · exact .inl ht
    · intro h
      have hkey : s.block ∈ (f.exposure f.graph name).keys := by
        simpa [exposure] using mem_orderedBlocks.2 hblock
      refine ⟨_, ValueTable.mem_of_mem_keys false hkey, mem_exposedIn.2
        ⟨pre, s, post, hsplit, rfl, hn, ha, ?_⟩⟩
      rcases h with ht | hu | hp
      · exact .inr (.inr ht)
      · exact .inr (.inl hu)
      · exact .inl ((any_exposure_iff wf hblock).2 hp)
  next hany =>
    -- no site takes the address at all
    rw [List.any_eq_true] at hany
    refine iff_of_false (by simp) ?_
    rintro (ht | ⟨u, hu, ht⟩ | ⟨p, _, a, _, u, hu, ht⟩)
    · exact hany ⟨s, hs, ht⟩
    · exact hany ⟨u, mem_allSites.2 ⟨s.block, by simp [hsplit, hu]⟩, ht⟩
    · exact hany ⟨u, mem_allSites.2 ⟨a, hu⟩, ht⟩

theorem mem_jumps {src dst : BlockId} :
    (src, dst) ∈ f.jumps ↔ ∃ e ∈ f.edgesAt src, e.kind = .jump ∧ f.hasBlock e.dst = true ∧ e.dst = dst := by
  simp only [jumps, List.mem_flatMap, List.mem_map, List.mem_filter, Prod.mk.injEq, Prod.exists,
    mem_sortedBlocks, Bool.and_eq_true, decide_eq_true_eq]
  constructor
  · rintro ⟨id, blk, hb, e, ⟨he, hk, hd⟩, rfl, rfl⟩
    exact ⟨e, by rwa [edgesAt_eq hb], hk, hd, rfl⟩
  · rintro ⟨e, he, hk, hd, rfl⟩
    obtain ⟨blk, hb⟩ := hasBlock_iff.1 (hasBlock_of_mem_edgesAt he)
    exact ⟨src, blk, hb, e, ⟨by rwa [edgesAt_eq hb] at he, hk, hd⟩, rfl, rfl⟩

/-- The blocks of label loops are those on closed walks that jump. -/
theorem mem_labelLoopBlocks (wf : f.WellFormed) {b : BlockId} :
    b ∈ f.labelLoopBlocks ↔ ∃ es, f.Walk b es b ∧ ∃ e ∈ es, e.kind = .jump := by
  have hloop : b ∈ f.labelLoopBlocks ↔ ∃ src dst, (src, dst) ∈ f.jumps ∧
      (f.hasBlock src = true ∧ f.Leads dst src) ∧ (f.hasBlock b = true ∧ f.Leads dst b) ∧
      f.Leads b src := by
    simp only [labelLoopBlocks, List.mem_flatMap, Prod.exists]
    refine exists_congr fun src => exists_congr fun dst => and_congr_right fun _ => ?_
    by_cases h : src ∈ f.reachableFrom dst
    · simp [h, mem_reachableFrom.1 h, mem_reachableFrom, mem_reaching]
    · simp [h, mem_reachableFrom.not.1 h]
  rw [hloop]
  constructor
  · rintro ⟨src, dst, hj, _, ⟨_, es', h'⟩, es, h⟩
    obtain ⟨e, he, hk, _, rfl⟩ := mem_jumps.1 hj
    exact ⟨es ++ e :: es', walk_append.2 ⟨src, h, he, h'⟩, e, by simp, hk⟩
  · rintro ⟨es, hw, e, he, hk⟩
    obtain ⟨src, hsrc, hedge, hback⟩ := leads_of_mem_walk hw he
    have hb : f.hasBlock b = true := wf.leads_hasBlock (wf.target hedge) hback
    exact ⟨src, e.dst, mem_jumps.2 ⟨e, hedge, hk, wf.target hedge, rfl⟩,
      ⟨hasBlock_of_mem_edgesAt hedge, hback.trans hsrc⟩, ⟨hb, hback⟩, hsrc⟩

end Function
end MovePlan
