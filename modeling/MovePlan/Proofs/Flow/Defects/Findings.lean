import Mathlib.Data.List.Duplicate
import MovePlan.Flow.Validation
import MovePlan.Proofs.Answer
import MovePlan.Proofs.Flow.BlockGraph

set_option autoImplicit false

namespace MovePlan
namespace Function
variable {f : Function} {model : Option TypeModel} {d : Defect}

/-- The function has the defect. -/
inductive Flawed (f : Function) (model : Option TypeModel) : Defect → Prop
  | edgeSource {id : BlockId} {e : Edge} (he : e ∈ f.edgesAt id) (hsrc : e.src ≠ id) :
      Flawed f model (.edgeSource e.src e.dst id)
  | danglingEdge {id : BlockId} {e : Edge} (he : e ∈ f.edgesAt id) (hdst : f.block? e.dst = none)
      (hl : e.label.filter (· ≠ "") = none) : Flawed f model (.danglingEdge e.dst id)
  | unknownLabel {id : BlockId} {e : Edge} {label : String} (he : e ∈ f.edgesAt id)
      (hdst : f.block? e.dst = none) (hl : e.label.filter (· ≠ "") = some label) :
      Flawed f model (.unknownLabel label id)
  | unlabeledTarget {id : BlockId} {e : Edge} {dst : Block} (he : e ∈ f.edgesAt id)
      (hdst : f.block? e.dst = some dst) (hk : e.kind = .jump) (hl : dst.label = none) :
      Flawed f model (.unlabeledTarget id e.dst)
  | unreachableLabel {id : BlockId} {blk : Block} {label : String} (hb : f.block? id = some blk)
      (hl : blk.label = some label) (hr : ¬ f.Reached id) : Flawed f model (.unreachableLabel label)
  | sitePosition {id : BlockId} {i : ℕ} {s : Site} (hs : (f.sitesAt id)[i]? = some s)
      (hp : s.block ≠ id ∨ s.index ≠ i) : Flawed f model (.sitePosition s id i)
  | duplicateSite {id : SiteId} (h : List.Duplicate id (f.allSites.map Site.id)) :
      Flawed f model (.duplicateSite id)
  | untypedTemporary {s : Site} (hs : s ∈ f.allSites) (hn : s.binding = none)
      (h : s.kind ≠ .moveOut ∨ s.tempType = none) : Flawed f model (.untypedTemporary s.id)
  | unknownTempType {s : Site} {t : TypeId} {m : TypeModel} (hs : s ∈ f.allSites) (hn : s.binding = none)
      (hk : s.kind = .moveOut) (ht : s.tempType = some t) (hm : model = some m)
      (hc : m.table.contains t = false) : Flawed f model (.unknownTempType s.id t)
  | unknownBinding {s : Site} {name : String} (hs : s ∈ f.allSites) (hn : s.binding = some name)
      (hb : f.binding? name = none) : Flawed f model (.unknownBinding s.id name)
  | missingTarget {s : Site} (hs : s ∈ f.allSites) (hk : s.kind = .moveOut) (ht : s.target = none) :
      Flawed f model (.missingTarget s.id)
  | unknownRegionBlocks {key : String} {b : Binding} {region : List BlockId} {id : BlockId}
      (hb : f.binding? key = some b) (hr : b.region = some region) (hid : id ∈ region)
      (h : f.hasBlock id = false) : Flawed f model (.unknownRegionBlocks b.name
        (sortInts ((distinct region).filter fun id => !f.hasBlock id)))
  | declOutsideRegion {key : String} {b : Binding} {s : Site} (hb : f.binding? key = some b)
      (hs : s ∈ f.allSites) (hn : s.binding = some b.name) (hk : s.kind = .decl)
      (hout : b.inRegion s.block = false) : Flawed f model (.declOutsideRegion b.name)
  | unknownBindingType {key : String} {b : Binding} {m : TypeModel} (hm : model = some m)
      (hb : f.binding? key = some b) (hc : m.table.contains b.type = false) :
      Flawed f model (.unknownBindingType b.name b.type)
  | badPath {key : String} {b : Binding} {m : TypeModel} {s : Site} {e : TypeError}
      (hm : model = some m) (hb : f.binding? key = some b) (hc : m.table.contains b.type = true)
      (hs : s ∈ f.allSites) (hn : s.binding = some b.name) (he : m.resolvePath b.type s.path = .error e) :
      Flawed f model (.badPath e s.id)
  | undeclaredParam {name : String} (hp : name ∈ f.params)
      (h : ∀ b, f.binding? name = some b → b.isParam = false) : Flawed f model (.undeclaredParam name)
  | forwardOutOfRange {i : ℤ} (hi : i ∈ f.forwards) (h : (f.params.length : ℤ) ≤ i) :
      Flawed f model (.forwardOutOfRange i)
  | forwardNotMoveRef {i : ℤ} {name : String} {b : Binding} (hi : i ∈ f.forwards)
      (hlt : i < (f.params.length : ℤ)) (hname : entryAt? f.params i = some name)
      (hb : f.binding? name = some b) (hmode : b.mode ≠ .moveRef) :
      Flawed f model (.forwardNotMoveRef b.name)
  | unknownCapture {inner : Function} {name : String} (hinner : inner ∈ f.nested)
      (hname : name ∈ inner.captures) (hb : f.binding? name = none) :
      Flawed f model (.unknownCapture inner.name name)

def Reports (xs : List Finding) (d : Defect) : Prop := ∃ x ∈ xs, x.defect = d

@[simp] theorem reports_nil : ¬ Reports [] d := by simp [Reports]

@[simp] theorem reports_append {xs ys : List Finding} :
    Reports (xs ++ ys) d ↔ Reports xs d ∨ Reports ys d := by
  simp [Reports, or_and_right, exists_or]

@[simp] theorem reports_singleton {d' : Defect} {span : Span} : Reports [⟨d', span⟩] d ↔ d' = d := by
  simp [Reports]

theorem reports_flatMap {α : Type} {xs : List α} {g : α → List Finding} :
    Reports (xs.flatMap g) d ↔ ∃ x ∈ xs, Reports (g x) d := by
  simp only [Reports, List.mem_flatMap]
  exact ⟨fun ⟨y, ⟨x, hx, hy⟩, hd⟩ => ⟨x, hx, y, hy, hd⟩, fun ⟨x, hx, y, hy, hd⟩ => ⟨y, ⟨x, hx, hy⟩, hd⟩⟩

theorem reports_filterMap {α : Type} {xs : List α} {g : α → Option Finding} :
    Reports (xs.filterMap g) d ↔ ∃ x ∈ xs, ∃ y, g x = some y ∧ y.defect = d := by
  simp only [Reports, List.mem_filterMap]
  exact ⟨fun ⟨y, ⟨x, hx, hy⟩, hd⟩ => ⟨x, hx, y, hy, hd⟩, fun ⟨x, hx, y, hy, hd⟩ => ⟨y, ⟨x, hx, hy⟩, hd⟩⟩

theorem reports_edgeFindings {id : BlockId} {blk : Block} {e : Edge} :
    Reports (f.edgeFindings id blk e) d ↔
      (e.src ≠ id ∧ .edgeSource e.src e.dst id = d) ∨
      (f.block? e.dst = none ∧ (e.label.filter (· ≠ "") = none ∧ .danglingEdge e.dst id = d ∨
        ∃ label, e.label.filter (· ≠ "") = some label ∧ .unknownLabel label id = d)) ∨
      ∃ dst, f.block? e.dst = some dst ∧ e.kind = .jump ∧ dst.label = none ∧
        .unlabeledTarget id e.dst = d := by
  rw [edgeFindings, reports_append]
  refine or_congr ?_ ?_
  · split <;> simp_all
  · cases hdst : f.block? e.dst with
    | none => cases e.label.filter (· ≠ "") <;> simp
    | some dst =>
      simp only [reduceCtorEq, false_and, false_or, Option.some.injEq, exists_eq_left']
      split <;> simp_all

theorem mem_edgesAt_iff {id : BlockId} {e : Edge} :
    e ∈ f.edgesAt id ↔ ∃ blk, f.block? id = some blk ∧ e ∈ blk.edges := by
  constructor
  · intro he
    obtain ⟨blk, hb⟩ := hasBlock_iff.1 (hasBlock_of_mem_edgesAt he)
    exact ⟨blk, hb, edgesAt_eq hb ▸ he⟩
  · rintro ⟨blk, hb, he⟩
    exact edgesAt_eq hb ▸ he

theorem reports_edges : Reports (f.sortedBlocks.flatMap fun b => b.2.edges.flatMap (f.edgeFindings b.1 b.2)) d ↔
    ∃ id blk e, f.block? id = some blk ∧ e ∈ blk.edges ∧ Reports (f.edgeFindings id blk e) d := by
  simp only [reports_flatMap, Prod.exists, mem_sortedBlocks]
  exact ⟨fun ⟨id, blk, hb, e, he, hd⟩ => ⟨id, blk, e, hb, he, hd⟩,
    fun ⟨id, blk, e, hb, he, hd⟩ => ⟨id, blk, hb, e, he, hd⟩⟩

theorem reports_labelFindings : Reports f.labelFindings d ↔
    ∃ id blk label, f.block? id = some blk ∧ blk.label = some label ∧ ¬ f.Reached id ∧
      .unreachableLabel label = d := by
  simp only [labelFindings, reports_filterMap, Prod.exists, mem_sortedBlocks]
  constructor
  · rintro ⟨id, blk, hb, x, hx, hd⟩
    cases hl : blk.label with
    | none => simp [hl] at hx
    | some label =>
      simp only [hl] at hx
      split at hx
      · cases hx
      next hr =>
        cases hx
        exact ⟨id, blk, label, hb, hl, fun h => hr (by simpa using mem_reachable.2 h), hd⟩
  · rintro ⟨id, blk, label, hb, hl, hr, hd⟩
    have hnot : id ∉ f.reachable := fun h => hr (mem_reachable.1 h)
    exact ⟨id, blk, hb, ⟨.unreachableLabel label, blk.span⟩, by simp [hl, hnot], hd⟩

theorem mem_placedSites {id : BlockId} {i : ℕ} {s : Site} :
    (id, i, s) ∈ f.placedSites ↔ (f.sitesAt id)[i]? = some s := by
  simp only [placedSites, List.mem_flatMap, List.mem_map, Prod.exists, Prod.mk.injEq, mem_sortedBlocks]
  constructor
  · rintro ⟨x, blk, hb, t, j, hj, rfl, rfl, rfl⟩
    rw [sitesAt_eq hb]
    exact List.mem_zipIdx_iff_getElem?.1 hj
  · intro h
    obtain ⟨blk, hb⟩ := hasBlock_iff.1 (hasBlock_of_mem_sitesAt (List.mem_of_getElem? h))
    rw [sitesAt_eq hb] at h
    exact ⟨id, blk, hb, s, i, List.mem_zipIdx_iff_getElem?.2 h, rfl, rfl, rfl⟩

theorem map_placedSites : f.placedSites.map (fun p => p.2.2.id) = f.allSites.map Site.id := by
  simp only [placedSites, allSites, List.map_flatMap, List.map_map, Function.comp_def]
  refine congrArg List.flatten (List.map_congr_left fun b _ => ?_)
  rw [show (fun p : Site × ℕ => p.1.id) = Site.id ∘ Prod.fst from rfl, ← List.map_map,
    List.zipIdx_map_fst]

theorem exists_getElem?_of_mem {s : Site} (h : s ∈ f.allSites) :
    ∃ (id : BlockId) (i : ℕ), (f.sitesAt id)[i]? = some s := by
  obtain ⟨id, hs⟩ := mem_allSites.1 h
  obtain ⟨i, hi⟩ := List.mem_iff_getElem?.1 hs
  exact ⟨id, i, hi⟩

theorem contains_bindings {name : String} :
    f.bindings.contains name = (f.binding? name).isSome := rfl

theorem reports_siteFindings {seen : List SiteId} {id : BlockId} {i : ℕ} {s : Site} :
    Reports (f.siteFindings model seen id i s) d ↔
      ((s.block ≠ id ∨ s.index ≠ i) ∧ .sitePosition s id i = d) ∨
      (s.id ∈ seen ∧ .duplicateSite s.id = d) ∨
      (s.binding = none ∧ ((s.kind ≠ .moveOut ∨ s.tempType = none) ∧ .untypedTemporary s.id = d ∨
        ∃ t m, s.kind = .moveOut ∧ s.tempType = some t ∧ model = some m ∧ m.table.contains t = false ∧
          .unknownTempType s.id t = d)) ∨
      (∃ name, s.binding = some name ∧ f.binding? name = none ∧ .unknownBinding s.id name = d) ∨
      (s.kind = .moveOut ∧ s.target = none ∧ .missingTarget s.id = d) := by
  rw [siteFindings, reports_append, reports_append, reports_append, or_assoc, or_assoc]
  refine or_congr ?_ (or_congr ?_ ?_)
  · split <;> simp_all
  · split <;> simp_all
  rw [← or_assoc (a := _ ∧ _) (b := ∃ _, _)]
  refine or_congr ?_ ?_
  · cases hn : s.binding with
    | some name =>
      cases hb : f.binding? name with
      | none => simp [contains_bindings, hb]
      | some b => simp [contains_bindings, hb]
    | none =>
      cases ht : s.tempType with
      | none => simp
      | some t =>
        by_cases hk : s.kind = .moveOut
        · cases model with
          | none => simp [hk]
          | some m => cases hc : m.table.contains t <;> simp [hk, hc]
        · simp [hk]
  · by_cases hk : s.kind = .moveOut <;> cases s.target <;> simp [hk]

theorem reports_sitesFindings {seen : List SiteId} {ps : List (BlockId × ℕ × Site)} :
    Reports (f.sitesFindings model seen ps) d ↔ ∃ before p after, ps = before ++ p :: after ∧
      Reports (f.siteFindings model ((before.map fun q => q.2.2.id).reverse ++ seen) p.1 p.2.1 p.2.2) d := by
  induction ps generalizing seen with
  | nil => simp [sitesFindings]
  | cons p ps ih =>
    rw [sitesFindings, reports_append, ih]
    constructor
    · rintro (h | ⟨before, q, after, rfl, h⟩)
      · exact ⟨[], p, ps, rfl, h⟩
      · exact ⟨p :: before, q, after, rfl, by simpa using h⟩
    · rintro ⟨before, q, after, hsplit, h⟩
      cases before with
      | nil =>
        cases hsplit
        exact .inl h
      | cons x before =>
        cases hsplit
        exact .inr ⟨before, q, after, rfl, by simpa using h⟩

theorem duplicate_map_iff {α β : Type} [DecidableEq β] {g : α → β} {xs : List α} {y : β} :
    List.Duplicate y (xs.map g) ↔
      ∃ before x after, xs = before ++ x :: after ∧ g x = y ∧ y ∈ before.map g := by
  constructor
  · intro h
    induction xs with
    | nil => cases h
    | cons z zs ih =>
      rcases List.duplicate_cons_iff.1 h with ⟨hz, hmem⟩ | h
      · obtain ⟨x, hx, hxy⟩ := List.mem_map.1 hmem
        obtain ⟨before, after, rfl⟩ := List.append_of_mem hx
        exact ⟨z :: before, x, after, rfl, hxy, by simp [hz]⟩
      · obtain ⟨before, x, after, rfl, hxy, hmem⟩ := ih h
        exact ⟨z :: before, x, after, rfl, hxy, List.mem_cons_of_mem _ hmem⟩
  · rintro ⟨before, x, after, rfl, rfl, hmem⟩
    rw [List.map_append, List.map_cons, List.duplicate_iff_two_le_count, List.count_append,
      List.count_cons_self]
    have := List.count_pos_iff.2 hmem
    omega

theorem reports_sites : Reports (f.sitesFindings model [] f.placedSites) d ↔
    (∃ id i s, (f.sitesAt id)[i]? = some s ∧ Reports (f.siteFindings model [] id i s) d) ∨
      ∃ id, List.Duplicate id (f.allSites.map Site.id) ∧ .duplicateSite id = d := by
  have hids : (f.placedSites.map fun p => p.2.2.id) = f.allSites.map Site.id := map_placedSites
  rw [reports_sitesFindings]
  constructor
  · rintro ⟨before, ⟨id, i, s⟩, after, hsplit, h⟩
    have hplaced : (f.sitesAt id)[i]? = some s := mem_placedSites.1 (by simp [hsplit])
    rw [reports_siteFindings] at h
    by_cases hseen : s.id ∈ before.map (fun q => q.2.2.id) ∧ .duplicateSite s.id = d
    · refine .inr ⟨s.id, ?_, hseen.2⟩
      rw [← hids]
      exact duplicate_map_iff.2 ⟨before, _, after, hsplit, rfl, hseen.1⟩
    · refine .inl ⟨id, i, s, hplaced, reports_siteFindings.2 ?_⟩
      simp only [List.append_nil, List.mem_reverse, hseen, false_or, List.not_mem_nil, false_and] at h ⊢
      exact h
  · rintro (⟨id, i, s, hs, h⟩ | ⟨id, hdup, hd⟩)
    · obtain ⟨before, after, hsplit⟩ := List.append_of_mem (mem_placedSites.2 hs)
      refine ⟨before, (id, i, s), after, hsplit, ?_⟩
      rw [reports_siteFindings] at h ⊢
      simp only [List.not_mem_nil, false_and, false_or] at h
      exact h.imp_right .inr
    · rw [← hids] at hdup
      obtain ⟨before, p, after, hsplit, rfl, hmem⟩ := duplicate_map_iff.1 hdup
      refine ⟨before, p, after, hsplit, reports_siteFindings.2 (.inr (.inl ⟨?_, hd⟩))⟩
      simpa using hmem

theorem reports_regionFindings {b : Binding} : Reports (f.regionFindings b) d ↔
    ∃ region, b.region = some region ∧
      ((∃ id ∈ region, f.hasBlock id = false) ∧ .unknownRegionBlocks b.name
          (sortInts ((distinct region).filter fun id => !f.hasBlock id)) = d ∨
        ∃ s ∈ f.allSites, s.binding = some b.name ∧ s.kind = .decl ∧ s.block ∉ region ∧
          .declOutsideRegion b.name = d) := by
  rw [regionFindings]
  cases hr : b.region with
  | none => simp
  | some region =>
    have hunknown : (sortInts ((distinct region).filter fun id => !f.hasBlock id)).isEmpty = false ↔
        ∃ id ∈ region, f.hasBlock id = false := by
      rw [List.isEmpty_eq_false_iff_exists_mem]
      simp [sortInts, mem_sortBy, mem_distinct]
    simp only [reports_append, Option.some.injEq, exists_eq_left', reports_filterMap, mem_sitesOf]
    refine or_congr ?_ ?_
    · rw [← hunknown]
      split <;> simp_all
    · constructor
      · rintro ⟨s, ⟨hs, hn⟩, x, hx, hd⟩
        split at hx
        next hout =>
          rw [Option.some.injEq] at hx
          subst hx
          simp only [Bool.and_eq_true, decide_eq_true_eq, Bool.not_eq_true', List.contains_eq_mem,
            decide_eq_false_iff_not] at hout
          exact ⟨s, hs, hn, hout.1, hout.2, hd⟩
        next => cases hx
      · rintro ⟨s, hs, hn, hk, hout, hd⟩
        exact ⟨s, ⟨hs, hn⟩, ⟨.declOutsideRegion b.name, s.span⟩, by simp [hk, hout], hd⟩

theorem reports_typeFindings {m : TypeModel} {b : Binding} :
    Reports (f.typeFindings m b) d ↔
      (m.table.contains b.type = false ∧ .unknownBindingType b.name b.type = d) ∨
      (m.table.contains b.type = true ∧ ∃ s ∈ f.allSites, s.binding = some b.name ∧
        ∃ e, m.resolvePath b.type s.path = .error e ∧ .badPath e s.id = d) := by
  rw [typeFindings]
  cases hc : m.table.contains b.type with
  | false => simp
  | true =>
    simp only [Bool.not_true, Bool.false_eq_true, ↓reduceIte, reports_filterMap, mem_sitesOf, reduceCtorEq,
      false_and, false_or, true_and]
    constructor
    · rintro ⟨s, ⟨hs, hn⟩, x, hx, hd⟩
      split at hx
      · cases hx
      next e he =>
        cases hx
        exact ⟨s, hs, hn, e, he, hd⟩
    · rintro ⟨s, hs, hn, e, he, hd⟩
      exact ⟨s, ⟨hs, hn⟩, ⟨.badPath e s.id, s.span⟩, by simp [he], hd⟩

theorem mem_bindings {b : Binding} : b ∈ f.bindings.values ↔ ∃ key, f.binding? key = some b := by
  simp only [OrderedMap.values, List.mem_map, Prod.exists, exists_eq_right, binding?,
    OrderedMap.get?_eq_some_iff]

theorem reports_bindings : Reports (f.bindings.values.flatMap (f.bindingFindings model)) d ↔
    ∃ key b, f.binding? key = some b ∧ (Reports (f.regionFindings b) d ∨
      ∃ m, model = some m ∧ Reports (f.typeFindings m b) d) := by
  simp only [reports_flatMap, mem_bindings, bindingFindings, reports_append]
  constructor
  · rintro ⟨b, ⟨key, hb⟩, h⟩
    refine ⟨key, b, hb, h.imp_right fun h => ?_⟩
    cases model with
    | none => exact absurd h reports_nil
    | some m => exact ⟨m, rfl, h⟩
  · rintro ⟨key, b, hb, h | ⟨m, rfl, h⟩⟩
    · exact ⟨b, ⟨key, hb⟩, .inl h⟩
    · exact ⟨b, ⟨key, hb⟩, .inr h⟩

theorem reports_paramFindings : Reports f.paramFindings d ↔
    ∃ name ∈ f.params, (∀ b, f.binding? name = some b → b.isParam = false) ∧ .undeclaredParam name = d := by
  simp only [paramFindings, reports_filterMap]
  refine exists_congr fun name => and_congr_right fun _ => ?_
  cases hb : f.binding? name with
  | none => simp
  | some b => cases hp : b.isParam <;> simp [hp]

theorem reports_forwardFindings : Reports f.forwardFindings d ↔
    ∃ i ∈ f.forwards, ((f.params.length : ℤ) ≤ i ∧ .forwardOutOfRange i = d) ∨
      (i < (f.params.length : ℤ) ∧ ∃ name b, entryAt? f.params i = some name ∧ f.binding? name = some b ∧
        b.mode ≠ .moveRef ∧ .forwardNotMoveRef b.name = d) := by
  simp only [forwardFindings, reports_filterMap, sortInts, mem_sortBy, mem_distinct]
  refine exists_congr fun i => and_congr_right fun _ => ?_
  by_cases hi : (f.params.length : ℤ) ≤ i
  · simp [hi, not_lt.2 hi]
  · simp only [ge_iff_le, hi, ↓reduceIte, false_and, not_le.1 hi, true_and, false_or]
    cases hname : entryAt? f.params i with
    | none => simp
    | some name =>
      cases hb : f.binding? name with
      | none => simp [hb]
      | some b => by_cases hmode : b.mode = .moveRef <;> simp [hmode, hb]

theorem reports_captureFindings : Reports f.captureFindings d ↔ ∃ inner ∈ f.nested, ∃ name ∈ inner.captures,
    f.binding? name = none ∧ .unknownCapture inner.name name = d := by
  simp only [captureFindings, reports_flatMap, reports_filterMap]
  refine exists_congr fun inner => and_congr_right fun _ => exists_congr fun name =>
    and_congr_right fun _ => ?_
  constructor
  · rintro ⟨x, hx, hd⟩
    split at hx
    · cases hx
    next hb =>
      cases hx
      exact ⟨by simpa [contains_bindings] using hb, hd⟩
  · rintro ⟨hb, hd⟩
    exact ⟨⟨.unknownCapture inner.name name, inner.span⟩, by simp [contains_bindings, hb], hd⟩

end Function
end MovePlan
