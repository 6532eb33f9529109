import Mathlib.Order.BooleanAlgebra.Defs
import Mathlib.Order.Basic
import MovePlan.Analysis.LastUse
import MovePlan.Proofs.Flow.WellFormed

set_option autoImplicit false

/-!
# Liveness over walks

A binding is live after a site if some walk inside its region comes to an access of it before it is
declared again. The backward iteration computes just this.
-/
namespace MovePlan
namespace Function
variable {f : Function} {name : String} {b : Binding}

/-- Along some walk from the site that stays in the region, an access of the binding follows before
any declaration of it. -/
def UsedAfter (f : Function) (name : String) (b : Binding) (s : Site) : Prop :=
  ∃ es c before mid t after, f.Walk s.block es c ∧
    f.trace s.block es = before ++ .pass s :: (mid ++ .pass t :: after) ∧
    t.binding = some name ∧ t.isAccess = true ∧
    (∀ u, .pass u ∈ mid → declares name u = false) ∧
    ∀ x, .enter x ∈ mid → b.inRegion x = true

/-- Whether an access comes first in a list of events. -/
def liveOn (name : String) (b : Binding) : List TraceEvent → Bool
  | [] => false
  | .enter x :: rest => b.inRegion x && liveOn name b rest
  | .pass u :: rest => liveBefore name u (liveOn name b rest)

theorem liveOn_sites (sites : List Site) (rest : List TraceEvent) :
    liveOn name b (sites.map .pass ++ rest) = liveBeforeAll name sites (liveOn name b rest) := by
  induction sites with
  | nil => rfl
  | cons s sites ih =>
    rw [List.map_cons, List.cons_append, liveOn, ih]
    rfl

theorem liveOn_cons_eventsAt (c : BlockId) (rest : List TraceEvent) :
    liveOn name b (f.eventsAt c ++ rest) =
      (b.inRegion c && liveBeforeAll name (f.sitesAt c) (liveOn name b rest)) := by
  rw [eventsAt, List.cons_append, liveOn, liveOn_sites]

theorem liveOn_iff {events : List TraceEvent} :
    liveOn name b events = true ↔ ∃ mid t after, events = mid ++ .pass t :: after ∧
      t.binding = some name ∧ t.isAccess = true ∧
      (∀ u, .pass u ∈ mid → declares name u = false) ∧
      ∀ x, .enter x ∈ mid → b.inRegion x = true := by
  constructor
  · intro h
    induction events with
    | nil => simp [liveOn] at h
    | cons x events ih =>
      cases x with
      | enter c =>
        rw [liveOn, Bool.and_eq_true] at h
        obtain ⟨mid, t, after, rfl, ht, ha, hd, hr⟩ := ih h.2
        refine ⟨.enter c :: mid, t, after, rfl, ht, ha, by simpa using hd, ?_⟩
        simpa [h.1] using hr
      | pass u =>
        rw [liveOn, liveBefore] at h
        split at h
        next hu => exact ⟨[], u, events, rfl, hu, h, by simp, by simp⟩
        next hu =>
          obtain ⟨mid, t, after, rfl, ht, ha, hd, hr⟩ := ih h
          refine ⟨.pass u :: mid, t, after, rfl, ht, ha, ?_, by simpa using hr⟩
          simpa [declares, hu] using hd
  · rintro ⟨mid, t, after, rfl, ht, ha, hd, hr⟩
    induction mid with
    | nil => simp [liveOn, liveBefore, ht, ha]
    | cons x mid ih =>
      have hrest := ih (fun u hu => hd u (List.mem_cons_of_mem _ hu))
        fun c hc => hr c (List.mem_cons_of_mem _ hc)
      cases x with
      | enter c => simp [liveOn, hr c List.mem_cons_self, hrest]
      | pass u =>
        have hu := hd u List.mem_cons_self
        rw [List.cons_append, liveOn, liveBefore]
        split
        next hb =>
          cases hk : u.kind <;> simp_all [declares, Site.isAccess, SiteKind.isAccess]
        next => exact hrest

theorem liveBeforeAll_mono {sites : List Site} {x y : Bool} (h : x ≤ y) :
    liveBeforeAll name sites x ≤ liveBeforeAll name sites y := by
  induction sites with
  | nil => exact h
  | cons s sites ih =>
    simp only [liveBeforeAll, List.foldr_cons, liveBefore]
    split
    · exact le_refl _
    · exact ih

end Function

namespace Liveness

instance : PartialOrder Liveness where
  le x y := x.atExit ≤ y.atExit ∧ x.atEntry ≤ y.atEntry
  le_refl x := ⟨le_refl _, le_refl _⟩
  le_trans _ _ _ h h' := ⟨h.1.trans h'.1, h.2.trans h'.2⟩
  le_antisymm x y h h' := by
    cases x
    cases y
    simp only [Liveness.mk.injEq]
    exact ⟨le_antisymm h.1 h'.1, le_antisymm h.2 h'.2⟩

def rank (x : Liveness) : ℕ := x.atExit.toNat + x.atEntry.toNat

theorem rank_le (x : Liveness) : x.rank ≤ 2 := by
  rcases x with ⟨_ | _, _ | _⟩ <;> decide

theorem rank_strictMono : StrictMono rank := by
  rintro ⟨x, y⟩ ⟨z, w⟩ h
  have hexit : x ≤ z := h.le.1
  have hentry : y ≤ w := h.le.2
  have hne : ¬(z ≤ x ∧ w ≤ y) := h.not_ge
  change x.toNat + y.toNat < z.toNat + w.toNat
  revert hexit hentry hne
  cases x <;> cases y <;> cases z <;> cases w <;> decide

theorem bottom_le (x : Liveness) : ({} : Liveness) ≤ x :=
  ⟨Bool.false_le _, Bool.false_le _⟩

end Liveness

namespace Function
variable {f : Function} {name : String} {b : Binding}

theorem livenessStep_mono : Monotone (f.livenessStep name b) := by
  intro x y h id
  have hout : ((f.successors id).any fun s => b.inRegion s && (x s).atEntry) ≤
      (f.successors id).any fun s => b.inRegion s && (y s).atEntry := by
    rw [Bool.le_iff_imp, List.any_eq_true, List.any_eq_true]
    rintro ⟨s, hs, hlive⟩
    rw [Bool.and_eq_true] at hlive
    refine ⟨s, hs, ?_⟩
    rw [Bool.and_eq_true]
    exact ⟨hlive.1, Bool.le_iff_imp.1 (h s).2 hlive.2⟩
  exact ⟨hout, liveBeforeAll_mono hout⟩

def LiveFrom (f : Function) (name : String) (b : Binding) (id : BlockId) : Prop :=
  ∃ es c, f.Walk id es c ∧ liveOn name b (es.flatMap fun e => f.eventsAt e.dst) = true

theorem liveFrom_of_liveness {id : BlockId}
    (h : ((f.liveness f.graph name b).at? {} id).atExit = true) : f.LiveFrom name b id := by
  -- the claim alone does not go through the iteration: it needs its counterpart at the entry
  let P : BlockId → Liveness → Prop := fun id x =>
    (x.atExit = true → f.LiveFrom name b id) ∧
      (x.atEntry = true → ∃ es c, f.Walk id es c ∧
        liveBeforeAll name (f.sitesAt id) (liveOn name b (es.flatMap fun e => f.eventsAt e.dst)) = true)
  have closed : ∀ x : BlockId → Liveness, (∀ k, P k (x k)) → ∀ k ∈ f.graph.order.reverse,
      P k (f.livenessStep name b x k) := by
    intro x hx k _
    have hexit : (f.livenessStep name b x k).atExit = true → f.LiveFrom name b k := by
      intro hout
      obtain ⟨s, hs, hlive⟩ := List.any_eq_true.1 hout
      rw [Bool.and_eq_true] at hlive
      obtain ⟨e, he, rfl⟩ := mem_successors.1 hs
      obtain ⟨es, c, hw, hl⟩ := (hx e.dst).2 hlive.2
      refine ⟨e :: es, c, ⟨he, hw⟩, ?_⟩
      rw [List.flatMap_cons, liveOn_cons_eventsAt, hlive.1, Bool.true_and]
      exact hl
    refine ⟨hexit, fun hentry => ?_⟩
    cases hout : (f.livenessStep name b x k).atExit with
    | true =>
      obtain ⟨es, c, hw, hl⟩ := hexit hout
      refine ⟨es, c, hw, ?_⟩
      rw [hl.trans hout.symm]
      exact hentry
    | false =>
      refine ⟨[], k, rfl, ?_⟩
      rw [List.flatMap_nil, liveOn, ← hout]
      exact hentry
  exact (ValueTable.settle_induction (P := P) (fun k => ⟨by simp, by simp⟩) (by simp) closed _ id).1 h

theorem nodup_order_reverse : f.graph.order.reverse.Nodup := List.nodup_reverse.2 nodup_orderedBlocks

theorem liveness_rounds (f : Function) (name : String) (b : Binding) :
    ∃ n ≤ 2 * f.graph.order.length, ValueTable.Rounds {} (f.livenessStep name b) f.graph.order.reverse
      (.fill f.graph.order fun _ => {}) n (f.liveness f.graph name b) :=
  ValueTable.rounds_of_mono Liveness.rank_strictMono Liveness.rank_le livenessStep_mono
    Liveness.bottom_le (by simp) nodup_order_reverse

theorem liveness_fixed {id : BlockId} (h : f.hasBlock id = true) :
    (f.liveness f.graph name b).at? {} id =
      f.livenessStep name b ((f.liveness f.graph name b).at? {}) id := by
  obtain ⟨_, _, hrounds⟩ := f.liveness_rounds name b
  exact hrounds.fixed (by simp) nodup_order_reverse id (List.mem_reverse.2 (mem_orderedBlocks.2 h))

theorem liveness_of_walk (wf : f.WellFormed) {id c : BlockId} {es : List Edge}
    (hid : f.hasBlock id = true) (hw : f.Walk id es c) :
    liveOn name b (es.flatMap fun e => f.eventsAt e.dst) ≤
      ((f.liveness f.graph name b).at? {} id).atExit := by
  induction es generalizing id with
  | nil => exact Bool.false_le _
  | cons e es ih =>
    have hdst := wf.target hw.1
    have hrest := ih hdst hw.2
    rw [Bool.le_iff_imp]
    intro hlive
    rw [List.flatMap_cons, liveOn_cons_eventsAt, Bool.and_eq_true] at hlive
    have hentry : ((f.liveness f.graph name b).at? {} e.dst).atEntry = true := by
      rw [liveness_fixed hdst]
      have hout : (f.livenessStep name b ((f.liveness f.graph name b).at? {}) e.dst).atExit =
          ((f.liveness f.graph name b).at? {} e.dst).atExit := by rw [← liveness_fixed hdst]
      refine Bool.le_iff_imp.1 (liveBeforeAll_mono (hrest.trans_eq hout.symm)) hlive.2
    rw [liveness_fixed hid]
    refine List.any_eq_true.2 ⟨e.dst, mem_successors.2 ⟨e, hw.1, rfl⟩, ?_⟩
    rw [hlive.1, hentry, Bool.true_and]

theorem liveness_iff (wf : f.WellFormed) {id : BlockId} (hid : f.hasBlock id = true) :
    ((f.liveness f.graph name b).at? {} id).atExit = true ↔ f.LiveFrom name b id := by
  refine ⟨liveFrom_of_liveness, ?_⟩
  rintro ⟨es, c, hw, hlive⟩
  exact Bool.le_iff_imp.1 (liveness_of_walk wf hid hw) hlive

theorem mem_liveAfterEach {sites : List Site} {out : Bool} {p : SiteId × Bool} :
    p ∈ liveAfterEach name sites out ↔ ∃ pre s post, sites = pre ++ s :: post ∧
      s.binding = some name ∧ p = (s.id, liveBeforeAll name post out) := by
  have main : ∀ sites : List Site,
      (sites.foldr (fun s (acc : List (SiteId × Bool) × Bool) =>
        (if s.binding = some name then acc.1 ++ [(s.id, acc.2)] else acc.1, liveBefore name s acc.2))
        ([], out)) = (liveAfterEach name sites out, liveBeforeAll name sites out) := by
    intro sites
    refine Prod.ext rfl ?_
    induction sites with
    | nil => rfl
    | cons s sites ih =>
      rw [List.foldr_cons, ih]
      rfl
  induction sites with
  | nil => simp [liveAfterEach]
  | cons s sites ih =>
    have hcons : liveAfterEach name (s :: sites) out =
        if s.binding = some name then
          liveAfterEach name sites out ++ [(s.id, liveBeforeAll name sites out)]
        else liveAfterEach name sites out := by
      rw [liveAfterEach, List.foldr_cons, main]
    have hmem : p ∈ liveAfterEach name (s :: sites) out ↔ p ∈ liveAfterEach name sites out ∨
        s.binding = some name ∧ p = (s.id, liveBeforeAll name sites out) := by
      rw [hcons]
      split
      next hs => simp [hs]
      next hs => simp [hs]
    refine hmem.trans ((or_congr_left ih).trans ?_)
    constructor
    · rintro (⟨pre, t, post, rfl, ht, hp⟩ | ⟨hs, hp⟩)
      · exact ⟨s :: pre, t, post, rfl, ht, hp⟩
      · exact ⟨[], s, sites, rfl, hs, hp⟩
    · rintro ⟨pre, t, post, hsplit, ht, hp⟩
      rcases pre with _ | ⟨x, pre⟩
      · rw [List.nil_append, List.cons.injEq] at hsplit
        obtain ⟨rfl, rfl⟩ := hsplit
        exact .inr ⟨ht, hp⟩
      · rw [List.cons_append, List.cons.injEq] at hsplit
        obtain ⟨rfl, rfl⟩ := hsplit
        exact .inl ⟨pre, t, post, rfl, ht, hp⟩

theorem lastWrite_liveAfter (wf : f.WellFormed) {table : ValueTable BlockId Liveness}
    (hkeys : table.keys = f.orderedBlocks) {s : Site} {pre post : List Site}
    (hs : f.sitesAt s.block = pre ++ s :: post) (hn : s.binding = some name) :
    lastWrite s.id (f.liveAfter table name) =
      some (liveBeforeAll name post (table.at? {} s.block).atExit) := by
  have hmem : s ∈ f.sitesAt s.block := by simp [hs]
  have hall : s ∈ f.allSites := mem_allSites.2 ⟨_, hmem⟩
  have hkey : s.block ∈ table.keys := by
    rw [hkeys, mem_orderedBlocks]
    exact hasBlock_of_mem_sitesAt hmem
  refine lastWrite_eq_some ?_ fun w hw => ?_
  · exact List.mem_flatMap.2 ⟨(s.block, table.at? {} s.block), ValueTable.mem_of_mem_keys {} hkey,
      mem_liveAfterEach.2 ⟨pre, s, post, hs, hn, rfl⟩⟩
  · obtain ⟨e, he, hin⟩ := List.mem_flatMap.1 hw
    obtain ⟨pre', t, post', ht, _, hp⟩ := mem_liveAfterEach.1 hin
    rw [Prod.mk.injEq] at hp
    have htmem : t ∈ f.sitesAt e.1 := by simp [ht]
    obtain rfl := wf.id_inj hall (mem_allSites.2 ⟨_, htmem⟩) hp.1
    have hblock : s.block = e.1 := wf.block htmem
    have hvalue : table.at? {} e.1 = e.2 :=
      ValueTable.at?_of_mem {} (hkeys ▸ nodup_orderedBlocks) he
    rw [← hblock] at ht hvalue
    obtain ⟨_, rfl⟩ := wf.split_unique hs ht
    rw [hvalue]
    exact hp.2

theorem usedAfter_iff (wf : f.WellFormed) {s : Site} {pre post : List Site}
    (hs : f.sitesAt s.block = pre ++ s :: post) :
    f.UsedAfter name b s ↔ ∃ es c, f.Walk s.block es c ∧
      liveBeforeAll name post (liveOn name b (es.flatMap fun e => f.eventsAt e.dst)) = true := by
  constructor
  · rintro ⟨es, c, before, mid, t, after, hw, ht, hrest⟩
    obtain ⟨es₁, es₂, d, pre', post', rfl, h₁, h₂, hsites, _, hafter⟩ := trace_split_pass hw ht
    obtain rfl : s.block = d := wf.block (by simp [hsites])
    obtain ⟨_, rfl⟩ := wf.split_unique hs hsites
    refine ⟨es₂, c, h₂, ?_⟩
    rw [← liveOn_sites, ← hafter, liveOn_iff]
    exact ⟨mid, t, after, rfl, hrest⟩
  · rintro ⟨es, c, hw, hlive⟩
    rw [← liveOn_sites, liveOn_iff] at hlive
    obtain ⟨mid, t, after, hsplit, hrest⟩ := hlive
    refine ⟨es, c, .enter s.block :: pre.map .pass, mid, t, after, hw, ?_, hrest⟩
    have htrace := trace_of_site es (walk_nil.2 rfl : f.Walk s.block [] s.block) hs
    rw [List.nil_append, approach_nil, List.nil_append, hsplit] at htrace
    exact htrace

/-- A site is marked live after just if its binding is used after it. -/
theorem liveAfter_liveness (wf : f.WellFormed) {s : Site} (hs : s ∈ f.allSites)
    (hn : s.binding = some name) :
    ∃ live, lastWrite s.id (f.liveAfter (f.liveness f.graph name b) name) = some live ∧
      (live = true ↔ f.UsedAfter name b s) := by
  have hmem := wf.mem_sitesAt hs
  obtain ⟨pre, post, hsplit⟩ := List.append_of_mem hmem
  have hblock : f.hasBlock s.block = true := hasBlock_of_mem_sitesAt hmem
  refine ⟨_, lastWrite_liveAfter wf ?_ hsplit hn, ?_⟩
  · simp [liveness]
  rw [usedAfter_iff wf hsplit]
  constructor
  · intro hlive
    cases hout : ((f.liveness f.graph name b).at? {} s.block).atExit with
    | true =>
      obtain ⟨es, c, hw, hl⟩ := (liveness_iff wf hblock).1 hout
      exact ⟨es, c, hw, by rw [hl.trans hout.symm]; exact hlive⟩
    | false => exact ⟨[], s.block, rfl, by rw [List.flatMap_nil, liveOn, ← hout]; exact hlive⟩
  · rintro ⟨es, c, hw, hl⟩
    exact Bool.le_iff_imp.1 (liveBeforeAll_mono (liveness_of_walk wf hblock hw)) hl

end Function
end MovePlan
