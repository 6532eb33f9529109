import MovePlan.Flow.Script
import MovePlan.Proofs.Analysis.Liveness
import MovePlan.Proofs.Analysis.Suppression
import MovePlan.Proofs.Types.Registered

set_option autoImplicit false

namespace MovePlan
namespace Function
variable {f : Function} {m : TypeModel} {mode : LastUseMode} {facts : LastUseFacts} {name : String}
  {b : Binding}

/-- The liveness after the sites of a binding that a mode works with. -/
def liveTable (f : Function) (mode : LastUseMode) (name : String) (b : Binding) :
    List (SiteId × Bool) :=
  match mode with
  | .fixpoint => f.liveAfter (f.liveness f.graph name b) name
  | .blockLocal => f.liveAfterLocally name

def accessFact (f : Function) (mode : LastUseMode) (name : String) (b : Binding) (s : Site)
    (blocked : Option FieldBlock) : AccessFact :=
  let last := !((lastWrite s.id (f.liveTable mode name b)).getD true)
  let suppressed := if last then suppression? (f.capturedNames.contains name)
      (f.exposedSites f.graph name) f.labelLoopBlocks s else none
  { site := s.id, lastUse := last && suppressed.isNone, suppressed := suppressed,
    fieldBlocked := blocked }

theorem accessFacts_eq (m : TypeModel) :
    f.accessFacts f.graph m f.labelLoopBlocks (f.liveTable mode name b) name b =
      ((f.sitesOf name).filter Site.isAccess).mapM fun s => do
        return f.accessFact mode name b s (← m.fieldBlock? b.type s) := rfl

theorem mem_usedBindings : (name, b) ∈ f.usedBindings ↔
    (∃ s ∈ f.allSites, s.binding = some name) ∧ f.binding? name = some b := by
  simp only [usedBindings, List.mem_filterMap, sortNames, mem_sortBy, mem_distinct]
  constructor
  · rintro ⟨n, hs, hb⟩
    obtain ⟨x, hx, h⟩ := Option.map_eq_some_iff.1 hb
    rw [Prod.mk.injEq] at h
    obtain ⟨rfl, rfl⟩ := h
    exact ⟨hs, hx⟩
  · rintro ⟨hs, hb⟩
    exact ⟨name, hs, by rw [hb]; rfl⟩

theorem accesses_of_lastUseFacts (h : f.lastUseFacts m mode = .ok facts) :
    ∃ parts, f.usedBindings.mapM (fun p => f.accessFacts f.graph m f.labelLoopBlocks
      (f.liveTable mode p.1 p.2) p.1 p.2) = .ok parts ∧ facts.accesses = parts.flatten := by
  cases mode with
  | fixpoint =>
    obtain ⟨parts, hparts, h⟩ := bind_eq_ok.1 h
    rw [pure_eq_ok] at h
    refine ⟨parts, ?_, by rw [← h]⟩
    rw [mapM_eq_ok, List.forall₂_map_left_iff] at hparts
    exact mapM_eq_ok.2 hparts
  | blockLocal =>
    obtain ⟨parts, hparts, h⟩ := bind_eq_ok.1 h
    rw [pure_eq_ok] at h
    exact ⟨parts, hparts, by rw [← h]⟩

theorem mem_accesses (h : f.lastUseFacts m mode = .ok facts) {a : AccessFact} :
    a ∈ facts.accesses ↔ ∃ s ∈ f.allSites, ∃ name b blocked, s.binding = some name ∧
      f.binding? name = some b ∧ s.isAccess = true ∧ m.fieldBlock? b.type s = .ok blocked ∧
      a = f.accessFact mode name b s blocked := by
  obtain ⟨parts, hparts, heq⟩ := accesses_of_lastUseFacts h
  rw [heq, List.mem_flatten]
  constructor
  · rintro ⟨part, hpart, ha⟩
    obtain ⟨⟨name, b⟩, hused, hfacts⟩ := mem_of_mapM hparts hpart
    rw [accessFacts_eq] at hfacts
    obtain ⟨s, hs, hfact⟩ := mem_of_mapM hfacts ha
    obtain ⟨blocked, hblocked, hfact⟩ := bind_eq_ok.1 hfact
    rw [pure_eq_ok] at hfact
    rw [List.mem_filter, mem_sitesOf] at hs
    exact ⟨s, hs.1.1, name, b, blocked, hs.1.2, (mem_usedBindings.1 hused).2, hs.2, hblocked, hfact.symm⟩
  · rintro ⟨s, hs, name, b, blocked, hn, hb, hacc, hblocked, rfl⟩
    obtain ⟨part, hpart, hfacts⟩ :=
      exists_mem_of_mapM hparts (mem_usedBindings.2 ⟨⟨s, hs, hn⟩, hb⟩)
    rw [accessFacts_eq] at hfacts
    obtain ⟨a, ha, hfact⟩ := exists_mem_of_mapM hfacts
      (List.mem_filter.2 ⟨mem_sitesOf.2 ⟨hs, hn⟩, hacc⟩)
    obtain ⟨blocked', hblocked', hfact⟩ := bind_eq_ok.1 hfact
    rw [pure_eq_ok] at hfact
    rw [hblocked, Except.ok.injEq] at hblocked'
    rw [← hblocked'] at hfact
    exact ⟨part, hpart, hfact ▸ ha⟩

theorem fact?_eq (wf : f.WellFormed) (h : f.lastUseFacts m mode = .ok facts) {s : Site}
    (hs : s ∈ f.allSites) (hn : s.binding = some name) (hb : f.binding? name = some b)
    (ha : s.isAccess = true) :
    ∃ blocked, m.fieldBlock? b.type s = .ok blocked ∧
      facts.fact? s.id = some (f.accessFact mode name b s blocked) := by
  obtain ⟨parts, hparts, heq⟩ := accesses_of_lastUseFacts h
  obtain ⟨part, hpart, hfacts⟩ := exists_mem_of_mapM hparts (mem_usedBindings.2 ⟨⟨s, hs, hn⟩, hb⟩)
  rw [accessFacts_eq] at hfacts
  obtain ⟨a, _, hfact⟩ := exists_mem_of_mapM hfacts (List.mem_filter.2 ⟨mem_sitesOf.2 ⟨hs, hn⟩, ha⟩)
  obtain ⟨blocked, hblocked, _⟩ := bind_eq_ok.1 hfact
  refine ⟨blocked, hblocked, lastWrite_eq_some ?_ fun w hw => ?_⟩
  · exact List.mem_map.2 ⟨_, (mem_accesses h).2 ⟨s, hs, name, b, blocked, hn, hb, ha, hblocked, rfl⟩, rfl⟩
  · obtain ⟨w', hw', hpair⟩ := List.mem_map.1 hw
    rw [Prod.mk.injEq] at hpair
    obtain ⟨hid, rfl⟩ := hpair
    obtain ⟨t, ht, name', b', blocked', hn', hb', _, hblocked', rfl⟩ := (mem_accesses h).1 hw'
    obtain rfl := wf.id_inj ht hs hid
    rw [hn, Option.some.injEq] at hn'
    subst hn'
    rw [hb, Option.some.injEq] at hb'
    subst hb'
    rw [hblocked, Except.ok.injEq] at hblocked'
    rw [hblocked']

/-- The analysis answers just if it can follow the paths of all accesses. -/
theorem exists_lastUseFacts_iff {t : TypeTable} (ht : t.FieldsRegistered) (wf : f.WellFormed)
    (typed : f.Typed (TypeModel.build t)) (mode : LastUseMode) :
    (∃ facts, f.lastUseFacts (TypeModel.build t) mode = .ok facts) ↔ f.Resolves (TypeModel.build t) := by
  constructor
  · rintro ⟨facts, hfacts⟩ s name b hs ha hn hb
    obtain ⟨_, hblocked, -⟩ := fact?_eq wf hfacts hs hn hb ha
    exact TypeModel.exists_resolvePath_of_fieldBlock? hblocked
  · intro hpaths
    have hparts : ∀ p ∈ f.usedBindings, ∃ part, f.accessFacts f.graph (TypeModel.build t)
        f.labelLoopBlocks (f.liveTable mode p.1 p.2) p.1 p.2 = .ok part := by
      intro p hp
      have hb := (mem_usedBindings.1 hp).2
      rw [accessFacts_eq]
      refine exists_mapM fun s hs => ?_
      rw [List.mem_filter, mem_sitesOf] at hs
      have hblock := TypeModel.exists_fieldBlock? ht (typed.binding hb) (hpaths hs.1.1 hs.2 hs.1.2 hb)
      exact exists_bind hblock fun _ _ => exists_pure
    cases mode with
    | fixpoint =>
      refine exists_bind (exists_mapM fun p hp => ?_) fun _ _ => exists_pure
      obtain ⟨q, hq, rfl⟩ := List.mem_map.1 hp
      exact hparts q hq
    | blockLocal => exact exists_bind (exists_mapM hparts) fun _ _ => exists_pure

theorem suppression?_eq_none {captured : Bool} {exposed : List SiteId} {loops : List BlockId} {s : Site} :
    suppression? captured exposed loops s = none ↔
      captured = false ∧ s.id ∉ exposed ∧ s.block ∉ loops := by
  rw [suppression?]
  cases captured <;> by_cases hs : s.id ∈ exposed <;> by_cases hl : s.block ∈ loops <;> simp [hs, hl]

theorem accessFact_lastUse (wf : f.WellFormed) {s : Site} (hs : s ∈ f.allSites)
    (hn : s.binding = some name) (ha : s.isAccess = true) (blocked : Option FieldBlock) :
    (f.accessFact .fixpoint name b s blocked).lastUse = true ↔
      ¬ f.UsedAfter name b s ∧ name ∉ f.capturedNames ∧
      ¬ (takesAddress name s = true ∨ f.AddressTakenBefore name s) ∧
      ¬ ∃ es, f.Walk s.block es s.block ∧ ∃ e ∈ es, e.kind = .jump := by
  obtain ⟨live, hlive, hused⟩ := liveAfter_liveness (b := b) wf hs hn
  rw [← mem_exposedSites wf hs hn ha, ← mem_labelLoopBlocks wf, ← hused]
  simp only [accessFact, liveTable, hlive, Option.getD_some]
  cases live with
  | true => simp
  | false => simp [suppression?_eq_none]

/-- There are facts just if the paths of all accesses can be followed. Every access has one then, and the
fact calls it a last use just if no later access can be reached inside the region, the binding is not
captured, its address cannot have been taken, and the block is on no closed walk that jumps. -/
theorem lastUse_exact {t : TypeTable} (ht : t.Built)
    (hv : f.validate (some (TypeModel.build t)) = .ok []) :
    ((∃ facts, f.lastUseFacts (TypeModel.build t) .fixpoint = .ok facts) ↔
      f.Resolves (TypeModel.build t)) ∧
    (f.Keyed → f.Resolves (TypeModel.build t)) ∧
    ∀ facts, f.lastUseFacts (TypeModel.build t) .fixpoint = .ok facts →
      ∀ s ∈ f.allSites, ∀ name, s.binding = some name → s.isAccess = true →
        ∃ b a, f.binding? name = some b ∧ facts.fact? s.id = some a ∧
          (a.lastUse = true ↔ ¬ f.UsedAfter name b s ∧ name ∉ f.capturedNames ∧
            ¬ (takesAddress name s = true ∨ f.AddressTakenBefore name s) ∧
            ¬ ∃ es, f.Walk s.block es s.block ∧ ∃ e ∈ es, e.kind = .jump) := by
  have wf : f.WellFormed := wellFormed_of_validate hv rfl
  have typed : f.Typed (TypeModel.build t) := typed_of_validate hv rfl
  refine ⟨exists_lastUseFacts_iff ht.fieldsRegistered wf typed .fixpoint,
    fun hkeyed => resolves_of_validate hkeyed hv rfl, fun facts hfacts s hs name hn ha => ?_⟩
  obtain ⟨b, hb⟩ := wf.binding hs hn
  obtain ⟨blocked, _, hfact⟩ := fact?_eq wf hfacts hs hn hb ha
  exact ⟨b, _, hb, hfact, accessFact_lastUse wf hs hn ha blocked⟩

def readTwice : Function :=
  (Script.run {} "f" .empty [.declare "t" (.id 1), .access .read "t", .access .read "t"]).function

theorem lastUse_readTwice :
    ∃ facts, readTwice.lastUseFacts
        (TypeModel.build { defs := [{ kind := .foreign, name := "Str" }] }) .fixpoint = .ok facts ∧
      ∀ s ∈ readTwice.allSites, ∀ name, s.binding = some name → s.isAccess = true →
        ∃ b a, readTwice.binding? name = some b ∧ facts.fact? s.id = some a ∧
          (a.lastUse = true ↔ ¬ readTwice.UsedAfter name b s ∧ name ∉ readTwice.capturedNames ∧
            ¬ (takesAddress name s = true ∨ readTwice.AddressTakenBefore name s) ∧
            ¬ ∃ es, readTwice.Walk s.block es s.block ∧ ∃ e ∈ es, e.kind = .jump) :=
by
  have hbuilt : TypeTable.Built { defs := [{ kind := .foreign, name := "Str" }] } := .newForeign .empty rfl
  obtain ⟨hanswers, hresolves, hexact⟩ := lastUse_exact (f := readTwice) hbuilt (by decide +kernel)
  obtain ⟨facts, hfacts⟩ := hanswers.2 (hresolves (keyed_iff.2 (by decide)))
  exact ⟨facts, hfacts, hexact facts hfacts⟩

/-- The access is the final one of its binding: all accesses stand in its block, none after it there, and no
walk comes back to the block. -/
structure FinalAccess (f : Function) (name : String) (s : Site) : Prop where
  alone : ∀ t ∈ f.allSites, t.binding = some name → t.isAccess = true → t.block = s.block
  last : ∃ pre post, f.sitesAt s.block = pre ++ s :: post ∧
    ∀ t ∈ post, t.binding = some name → t.isAccess = false
  once : ∀ c ∈ f.successors s.block, ¬ f.Leads c s.block

theorem distinct_eq_singleton {α : Type} [DecidableEq α] {xs : List α} {y : α} :
    distinct xs = [y] ↔ xs ≠ [] ∧ ∀ x ∈ xs, x = y := by
  constructor
  · intro h
    refine ⟨fun hnil => by simp [hnil, distinct] at h, fun x hx => ?_⟩
    simpa [h] using (mem_distinct x xs).2 hx
  · rintro ⟨hne, hall⟩
    have hrest : ∀ zs : List α, (∀ z ∈ zs, z = y) →
        zs.foldl (fun seen x => if x ∈ seen then seen else seen ++ [x]) [y] = [y] := by
      intro zs hzs
      induction zs with
      | nil => rfl
      | cons z zs ih =>
        rw [List.foldl_cons, if_pos (by simp [hzs z])]
        exact ih fun x hx => hzs x (List.mem_cons_of_mem _ hx)
    cases xs with
    | nil => exact absurd rfl hne
    | cons x xs =>
      rw [distinct, List.foldl_cons, hall x List.mem_cons_self]
      exact hrest xs fun z hz => hall z (List.mem_cons_of_mem _ hz)

theorem filter_allSites (wf : f.WellFormed) {p : Site → Bool} {id : BlockId} (hid : f.hasBlock id = true)
    (hp : ∀ t ∈ f.allSites, p t = true → t.block = id) : f.allSites.filter p = (f.sitesAt id).filter p := by
  obtain ⟨blk, hb⟩ := hasBlock_iff.1 hid
  obtain ⟨xs, ys, hsplit⟩ := List.append_of_mem (mem_sortedBlocks.2 hb)
  have hnodup : (f.sortedBlocks.map Prod.fst).Nodup := nodup_sortedIds
  rw [hsplit, List.map_append, List.map_cons, List.nodup_middle, List.nodup_cons, List.mem_append,
    not_or] at hnodup
  have hother : ∀ e ∈ f.sortedBlocks, e.1 ≠ id → e.2.sites.filter p = [] := by
    intro e he hne
    rw [List.filter_eq_nil_iff]
    intro t ht hpt
    have hte : t ∈ f.sitesAt e.1 := sitesAt_eq (mem_sortedBlocks.1 he) ▸ ht
    exact hne ((wf.block hte).symm.trans (hp t (mem_allSites.2 ⟨_, hte⟩) hpt))
  have hnil : ∀ zs : List (BlockId × Block), (∀ e ∈ zs, e ∈ f.sortedBlocks ∧ e.1 ≠ id) →
      zs.flatMap (fun e => e.2.sites.filter p) = [] :=
    fun zs hzs => List.flatMap_eq_nil_iff.2 fun e he => hother e (hzs e he).1 (hzs e he).2
  rw [allSites, List.filter_flatMap, hsplit, List.flatMap_append, List.flatMap_cons,
    hnil xs fun e he => ⟨by simp [hsplit, he], fun h => hnodup.1.1 (List.mem_map.2 ⟨e, he, h⟩)⟩,
    hnil ys fun e he => ⟨by simp [hsplit, he], fun h => hnodup.1.2 (List.mem_map.2 ⟨e, he, h⟩)⟩,
    sitesAt_eq hb, List.nil_append, List.append_nil]

theorem mem_accessesOf {t : Site} : t ∈ (f.sitesOf name).filter Site.isAccess ↔
    t ∈ f.allSites ∧ t.binding = some name ∧ t.isAccess = true := by
  rw [List.mem_filter, mem_sitesOf, and_assoc]

theorem getLast?_accessesOf (wf : f.WellFormed) {s : Site} (hs : s ∈ f.allSites)
    (hn : s.binding = some name) (ha : s.isAccess = true)
    (halone : ∀ t ∈ f.allSites, t.binding = some name → t.isAccess = true → t.block = s.block) :
    ((f.sitesOf name).filter Site.isAccess).getLast? = some s ↔
      ∃ pre post, f.sitesAt s.block = pre ++ s :: post ∧
        ∀ t ∈ post, t.binding = some name → t.isAccess = false := by
  let p : Site → Bool := fun t => t.isAccess && decide (t.binding = some name)
  have haccesses : (f.sitesOf name).filter Site.isAccess = f.allSites.filter p := List.filter_filter
  have hp : ∀ t, p t = true ↔ t.binding = some name ∧ t.isAccess = true := by
    intro t
    simp [p, and_comm]
  rw [haccesses, filter_allSites wf (hasBlock_of_mem_sitesAt (wf.mem_sitesAt hs))
    (fun t ht hpt => halone t ht ((hp t).1 hpt).1 ((hp t).1 hpt).2), List.getLast?_filter,
    List.find?_eq_some_iff_append]
  constructor
  · rintro ⟨_, as, bs, hsplit, has⟩
    refine ⟨bs.reverse, as.reverse, by simpa using congrArg List.reverse hsplit, fun t ht hn' => ?_⟩
    have hnot := has t (List.mem_reverse.1 ht)
    simpa [p, hn'] using hnot
  · rintro ⟨pre, post, hsplit, hpost⟩
    refine ⟨(hp s).2 ⟨hn, ha⟩, post.reverse, pre.reverse, by simp [hsplit], fun t ht => ?_⟩
    rw [Bool.not_eq_true', ← Bool.not_eq_true, hp]
    exact fun ⟨hn', ha'⟩ => by simp [hpost t (List.mem_reverse.1 ht) hn'] at ha'

theorem not_returns_iff {id : BlockId} (hid : f.hasBlock id = true) :
    ((f.successors id).any fun c => (f.reachableFrom c).contains id) = false ↔
      ∀ c ∈ f.successors id, ¬ f.Leads c id := by
  simp only [List.any_eq_false, List.contains_eq_mem, decide_eq_true_eq, mem_reachableFrom, not_and]
  exact forall₂_congr fun c _ => forall_prop_of_true hid

theorem liveAfterLocally_iff (wf : f.WellFormed) {s : Site} (hs : s ∈ f.allSites)
    (hn : s.binding = some name) (ha : s.isAccess = true) :
    lastWrite s.id (f.liveAfterLocally name) = some false ↔ f.FinalAccess name s := by
  have hreturns := not_returns_iff (hasBlock_of_mem_sitesAt (wf.mem_sitesAt hs))
  constructor
  · intro hlast
    have hall : ∀ xs : List Site, (s.id, false) ∉ xs.map fun s => (s.id, true) := by
      intro xs h
      simp at h
    have hentry := mem_of_lastWrite hlast
    simp only [liveAfterLocally] at hentry
    split at hentry
    case h_2 => exact absurd hentry (hall _)
    case h_1 block last hblocks hgetLast =>
    split at hentry
    next => exact absurd hentry (hall _)
    next hloop =>
    rcases List.mem_append.1 hentry with hentry | hentry
    · exact absurd hentry (hall _)
    rw [List.mem_singleton, Prod.mk.injEq] at hentry
    obtain ⟨hlastAll, -, -⟩ := mem_accessesOf.1 (List.mem_of_getLast? hgetLast)
    obtain rfl : s = last := wf.id_inj hs hlastAll hentry.1
    have hin := (distinct_eq_singleton.1 hblocks).2
    obtain rfl : s.block = block := hin _ (List.mem_map_of_mem (mem_accessesOf.2 ⟨hs, hn, ha⟩))
    have halone : ∀ t ∈ f.allSites, t.binding = some name → t.isAccess = true → t.block = s.block :=
      fun t ht hn' ha' => hin _ (List.mem_map_of_mem (mem_accessesOf.2 ⟨ht, hn', ha'⟩))
    exact ⟨halone, (getLast?_accessesOf wf hs hn ha halone).1 hgetLast,
      hreturns.1 (by simpa using hloop)⟩
  · rintro ⟨halone, hlast, hleads⟩
    have hblocks : distinct (((f.sitesOf name).filter Site.isAccess).map Site.block) = [s.block] := by
      rw [distinct_eq_singleton]
      refine ⟨List.ne_nil_of_mem (List.mem_map_of_mem (mem_accessesOf.2 ⟨hs, hn, ha⟩)), fun c hc => ?_⟩
      obtain ⟨t, ht, rfl⟩ := List.mem_map.1 hc
      obtain ⟨hall, hn', ha'⟩ := mem_accessesOf.1 ht
      exact halone t hall hn' ha'
    simp only [liveAfterLocally, hblocks, (getLast?_accessesOf wf hs hn ha halone).2 hlast,
      hreturns.2 hleads, Bool.false_eq_true, ↓reduceIte]
    simp [lastWrite, List.foldl_append]

theorem FinalAccess.not_usedAfter (wf : f.WellFormed) {s : Site} (h : f.FinalAccess name s) :
    ¬ f.UsedAfter name b s := by
  rintro ⟨es, c, before, mid, t, after, hw, htrace, hn, ha, _, _⟩
  obtain ⟨pre, post, hsites, hpost⟩ := h.last
  obtain ⟨es₁, es₂, d, pre', post', rfl, h₁, h₂, hsites', _, hafter⟩ := trace_split_pass hw htrace
  obtain rfl : s.block = d := wf.block (by simp [hsites'])
  obtain ⟨-, rfl⟩ := wf.split_unique hsites hsites'
  have ht : TraceEvent.pass t ∈ post.map .pass ++ es₂.flatMap fun e => f.eventsAt e.dst := by
    rw [← hafter]
    simp
  rcases List.mem_append.1 ht with ht | ht
  · -- the other access stands after the site in the block
    obtain ⟨t', ht', heq⟩ := List.mem_map.1 ht
    cases heq
    rw [hpost t ht' hn] at ha
    cases ha
  · -- the walk comes back to the block
    obtain ⟨e, he, hte⟩ := List.mem_flatMap.1 ht
    have hte := mem_eventsAt_pass.1 hte
    have hdst : e.dst = s.block := (wf.block hte).symm.trans (h.alone t (mem_allSites.2 ⟨_, hte⟩) hn ha)
    rcases es₂ with _ | ⟨e', es₂⟩
    · cases he
    · refine h.once e'.dst (mem_successors.2 ⟨e', h₂.1, rfl⟩) ?_
      rcases List.mem_cons.1 he with rfl | he
      · exact hdst ▸ .refl _
      · obtain ⟨q, hq, heq, _⟩ := leads_of_mem_walk h₂.2 he
        exact hq.trans (hdst ▸ leads_of_mem heq)

theorem not_usedAfter_of_locally (wf : f.WellFormed) {s : Site} (hs : s ∈ f.allSites)
    (hn : s.binding = some name) (ha : s.isAccess = true)
    (hlast : lastWrite s.id (f.liveAfterLocally name) = some false) : ¬ f.UsedAfter name b s :=
  ((liveAfterLocally_iff wf hs hn ha).1 hlast).not_usedAfter wf

/-- In both modes a last use is not followed by another access in its region. -/
theorem not_usedAfter_of_lastUse (wf : f.WellFormed) (h : f.lastUseFacts m mode = .ok facts)
    {s : Site} (hs : s ∈ f.allSites) (hn : s.binding = some name) (hb : f.binding? name = some b)
    (ha : s.isAccess = true) (hlast : facts.isLastUse s.id = true) : ¬ f.UsedAfter name b s := by
  obtain ⟨blocked, _, hfact⟩ := fact?_eq wf h hs hn hb ha
  rw [LastUseFacts.isLastUse, hfact, Option.map_some, Option.getD_some] at hlast
  cases mode with
  | fixpoint => exact ((accessFact_lastUse wf hs hn ha blocked).1 hlast).1
  | blockLocal =>
    simp only [accessFact, liveTable, Bool.and_eq_true, Bool.not_eq_true'] at hlast
    refine not_usedAfter_of_locally wf hs hn ha ?_
    cases hl : lastWrite s.id (f.liveAfterLocally name) with
    | none => simp [hl] at hlast
    | some v => simpa [hl] using hlast.1

end Function
end MovePlan
