import Mathlib.Logic.Equiv.Basic
import MovePlan.Proofs.Flow.Defects
import MovePlan.Proofs.Flow.Dominator

set_option autoImplicit false

namespace MovePlan

def Site.renumber (σ : BlockId → BlockId) (s : Site) : Site := { s with block := σ s.block }

def Edge.renumber (σ : BlockId → BlockId) (e : Edge) : Edge := { e with src := σ e.src, dst := σ e.dst }

def Block.renumber (σ : BlockId → BlockId) (b : Block) : Block :=
  { b with sites := b.sites.map (Site.renumber σ), edges := b.edges.map (Edge.renumber σ) }

def Binding.renumber (σ : BlockId → BlockId) (b : Binding) : Binding :=
  { b with region := b.region.map (List.map σ) }

def TraceEvent.renumber (σ : BlockId → BlockId) : TraceEvent → TraceEvent
  | .enter id => .enter (σ id)
  | .pass s => .pass (s.renumber σ)

/-- The function with the block `id` under the number `σ id`. The functions nested in it keep their
blocks. -/
def Function.renumber (σ : BlockId → BlockId) (f : Function) : Function :=
  { f with
    entry := σ f.entry
    blocks := .ofList (f.blocks.entries.map fun e => (σ e.1, e.2.renumber σ))
    bindings := f.bindings.mapEntries fun _ b => b.renumber σ }

section
variable (σ : BlockId → BlockId) (s : Site)

@[simp] theorem Site.renumber_block : (s.renumber σ).block = σ s.block := rfl
@[simp] theorem Site.renumber_id : (s.renumber σ).id = s.id := rfl
@[simp] theorem Site.renumber_index : (s.renumber σ).index = s.index := rfl
@[simp] theorem Site.renumber_kind : (s.renumber σ).kind = s.kind := rfl
@[simp] theorem Site.renumber_binding : (s.renumber σ).binding = s.binding := rfl
@[simp] theorem Site.renumber_path : (s.renumber σ).path = s.path := rfl
@[simp] theorem Binding.renumber_name (b : Binding) : (b.renumber σ).name = b.name := rfl

end

variable {σ : Equiv.Perm BlockId}

@[simp] theorem Site.renumber_symm (s : Site) : (s.renumber σ).renumber σ.symm = s := by
  simp [Site.renumber]

@[simp] theorem Edge.renumber_symm (e : Edge) : (e.renumber σ).renumber σ.symm = e := by
  simp [Edge.renumber]

@[simp] theorem Block.renumber_symm (b : Block) : (b.renumber σ).renumber σ.symm = b := by
  simp [Block.renumber, Function.comp_def]

@[simp] theorem Binding.renumber_symm (b : Binding) : (b.renumber σ).renumber σ.symm = b := by
  simp [Binding.renumber, Function.comp_def]

theorem Site.renumber_inj {s t : Site} : s.renumber σ = t.renumber σ ↔ s = t :=
  ⟨fun h => by rw [← s.renumber_symm (σ := σ), h, t.renumber_symm], congrArg _⟩

@[simp] theorem Binding.inRegion_renumber (b : Binding) (id : BlockId) :
    (b.renumber σ).inRegion (σ id) = b.inRegion id := by
  simp only [inRegion, renumber]
  cases b.region with
  | none => rfl
  | some region => simp [List.contains_eq_mem]

namespace Function
variable {f : Function}

theorem entries_renumber (f : Function) :
    (f.renumber σ).blocks.entries = f.blocks.entries.map fun e => (σ e.1, e.2.renumber σ) := by
  refine OrderedMap.entries_ofList ?_
  have h : (f.blocks.entries.map fun e => (σ e.1, e.2.renumber σ)).map Prod.fst =
      (f.blocks.entries.map Prod.fst).map σ := by simp [Function.comp_def]
  rw [h]
  exact f.blocks.nodup.map σ.injective

@[simp] theorem renumber_symm (f : Function) : (f.renumber σ).renumber σ.symm = f := by
  have hblocks : ((f.renumber σ).renumber σ.symm).blocks = f.blocks := by
    refine OrderedMap.ext_entries ?_
    rw [entries_renumber, entries_renumber]
    simp [Function.comp_def]
  have hbindings : ((f.renumber σ).renumber σ.symm).bindings = f.bindings := by
    refine OrderedMap.ext_entries ?_
    simp [renumber, OrderedMap.mapEntries, Function.comp_def]
  have hentry : ((f.renumber σ).renumber σ.symm).entry = f.entry := by simp [renumber]
  calc (f.renumber σ).renumber σ.symm
      = { f with
          entry := ((f.renumber σ).renumber σ.symm).entry
          blocks := ((f.renumber σ).renumber σ.symm).blocks
          bindings := ((f.renumber σ).renumber σ.symm).bindings } := rfl
    _ = f := by
      rw [hentry, hblocks, hbindings]
      cases f
      rfl

theorem block?_renumber (id : BlockId) :
    (f.renumber σ).block? (σ id) = (f.block? id).map (Block.renumber σ) := by
  have hfind : ∀ es : List (BlockId × Block),
      OrderedMap.findIn (σ id) (es.map fun e => (σ e.1, e.2.renumber σ)) =
        (OrderedMap.findIn id es).map (Block.renumber σ) := by
    intro es
    induction es with
    | nil => rfl
    | cons e es ih => by_cases he : e.1 = id <;> simp [OrderedMap.findIn, he, ih]
  rw [block?, OrderedMap.get?, entries_renumber, hfind]
  rfl

@[simp] theorem hasBlock_renumber (id : BlockId) : (f.renumber σ).hasBlock (σ id) = f.hasBlock id := by
  have h := congrArg Option.isSome (block?_renumber (σ := σ) (f := f) id)
  rwa [Option.isSome_map] at h

theorem sitesAt_renumber (id : BlockId) :
    (f.renumber σ).sitesAt (σ id) = (f.sitesAt id).map (Site.renumber σ) := by
  rw [sitesAt, sitesAt, block?_renumber]
  cases f.block? id <;> rfl

theorem edgesAt_renumber (id : BlockId) :
    (f.renumber σ).edgesAt (σ id) = (f.edgesAt id).map (Edge.renumber σ) := by
  rw [edgesAt, edgesAt, block?_renumber]
  cases f.block? id <;> rfl

theorem binding?_renumber (name : String) :
    (f.renumber σ).binding? name = (f.binding? name).map (Binding.renumber σ) :=
  OrderedMap.get?_mapEntries ..

theorem allSites_renumber : (f.renumber σ).allSites.Perm (f.allSites.map (Site.renumber σ)) := by
  have hblocks : (f.renumber σ).sortedBlocks.Perm
      (f.sortedBlocks.map fun e => (σ e.1, e.2.renumber σ)) := by
    refine (sortBy_perm _ _).trans ?_
    rw [entries_renumber]
    exact ((sortBy_perm _ _).map _).symm
  refine (hblocks.flatMap_right _).trans (.of_eq ?_)
  simp only [allSites, List.flatMap_map, List.map_flatMap]
  rfl

theorem sitesOf_renumber (name : String) :
    ((f.renumber σ).sitesOf name).Perm ((f.sitesOf name).map (Site.renumber σ)) := by
  refine (allSites_renumber.filter _).trans (.of_eq ?_)
  rw [List.filter_map]
  rfl

theorem mem_allSites_renumber {s : Site} :
    s.renumber σ ∈ (f.renumber σ).allSites ↔ s ∈ f.allSites := by
  rw [allSites_renumber.mem_iff, List.mem_map]
  exact ⟨fun ⟨t, ht, heq⟩ => Site.renumber_inj.1 heq ▸ ht, fun hs => ⟨s, hs, rfl⟩⟩

theorem exists_of_mem_allSites_renumber {s : Site} (h : s ∈ (f.renumber σ).allSites) :
    ∃ t ∈ f.allSites, t.renumber σ = s :=
  List.mem_map.1 (allSites_renumber.mem_iff.1 h)

theorem walk_renumber {a b : BlockId} {es : List Edge} (h : f.Walk a es b) :
    (f.renumber σ).Walk (σ a) (es.map (Edge.renumber σ)) (σ b) := by
  induction es generalizing a with
  | nil => exact congrArg σ h
  | cons e es ih =>
    refine ⟨?_, ih h.2⟩
    rw [edgesAt_renumber]
    exact List.mem_map_of_mem h.1

theorem eventsAt_renumber (id : BlockId) :
    (f.renumber σ).eventsAt (σ id) = (f.eventsAt id).map (TraceEvent.renumber σ) := by
  simp [eventsAt, sitesAt_renumber, TraceEvent.renumber, Function.comp_def]

theorem trace_renumber (a : BlockId) (es : List Edge) :
    (f.renumber σ).trace (σ a) (es.map (Edge.renumber σ)) =
      (f.trace a es).map (TraceEvent.renumber σ) := by
  rw [trace, trace, eventsAt_renumber, List.flatMap_map, List.map_append, List.map_flatMap]
  simp only [Edge.renumber, eventsAt_renumber]

theorem leads_renumber {a b : BlockId} : (f.renumber σ).Leads (σ a) (σ b) ↔ f.Leads a b := by
  have hleads : ∀ {σ : Equiv.Perm BlockId} {f : Function} {a b : BlockId}, f.Leads a b →
      (f.renumber σ).Leads (σ a) (σ b) := fun ⟨_, hw⟩ => ⟨_, walk_renumber hw⟩
  exact ⟨fun h => by simpa using hleads (σ := σ.symm) h, hleads⟩

theorem reached_renumber {b : BlockId} : (f.renumber σ).Reached (σ b) ↔ f.Reached b :=
  and_congr (by rw [hasBlock_renumber]) leads_renumber

theorem alwaysThrough_renumber {a b : BlockId} :
    (f.renumber σ).AlwaysThrough (σ a) (σ b) ↔ f.AlwaysThrough a b := by
  have halways : ∀ {σ : Equiv.Perm BlockId} {f : Function} {a b : BlockId},
      (f.renumber σ).AlwaysThrough (σ a) (σ b) → f.AlwaysThrough a b := by
    intro σ f a b h es hw
    have hmem := h _ (walk_renumber hw)
    rw [show (f.renumber σ).entry = σ f.entry from rfl, trace_renumber] at hmem
    obtain ⟨x, hx, heq⟩ := List.mem_map.1 hmem
    cases x with
    | enter id => exact σ.injective (TraceEvent.enter.inj heq) ▸ hx
    | pass s => cases heq
  exact ⟨halways, fun h => halways (σ := σ.symm) (by simpa using h)⟩

theorem mem_edgesAt_renumber {id : BlockId} {e : Edge} (he : e ∈ f.edgesAt id) :
    e.renumber σ ∈ (f.renumber σ).edgesAt (σ id) := by
  rw [edgesAt_renumber]
  exact List.mem_map_of_mem he

theorem binding?_renumber_of {name : String} {b : Binding} (hb : f.binding? name = some b) :
    (f.renumber σ).binding? name = some (b.renumber σ) := by
  rw [binding?_renumber, hb]
  rfl

theorem block?_renumber_of {id : BlockId} {blk : Block} (hb : f.block? id = some blk) :
    (f.renumber σ).block? (σ id) = some (blk.renumber σ) := by
  rw [block?_renumber, hb]
  rfl

theorem getBlock_renumber {id : BlockId} {blk : Block} (h : f.getBlock id = .ok blk) :
    (f.renumber σ).getBlock (σ id) = .ok (blk.renumber σ) := by
  rw [getBlock, optionOr_eq_ok] at h ⊢
  exact block?_renumber_of h

theorem block?_renumber_none {id : BlockId} (h : f.block? id = none) :
    (f.renumber σ).block? (σ id) = none := by
  rw [block?_renumber, h]
  rfl

theorem binding?_renumber_none {name : String} (h : f.binding? name = none) :
    (f.renumber σ).binding? name = none := by
  rw [binding?_renumber, h]
  rfl

theorem ids_renumber : ((f.renumber σ).allSites.map Site.id).Perm (f.allSites.map Site.id) := by
  refine (allSites_renumber.map _).trans (.of_eq ?_)
  rw [List.map_map]
  rfl

/-- A renumbered function has the defects of the first one, under the new numbers. -/
theorem exists_flawed_renumber {model : Option TypeModel} {d : Defect} (h : f.Flawed model d) :
    ∃ d', (f.renumber σ).Flawed model d' := by
  cases h with
  | edgeSource he hsrc => exact ⟨_, .edgeSource (mem_edgesAt_renumber he) (σ.injective.ne hsrc)⟩
  | danglingEdge he hdst hl => exact ⟨_, .danglingEdge (mem_edgesAt_renumber he) (block?_renumber_none hdst) hl⟩
  | unknownLabel he hdst hl => exact ⟨_, .unknownLabel (mem_edgesAt_renumber he) (block?_renumber_none hdst) hl⟩
  | unlabeledTarget he hdst hk hl =>
    exact ⟨_, .unlabeledTarget (mem_edgesAt_renumber he) (block?_renumber_of hdst) hk hl⟩
  | unreachableLabel hb hl hr =>
    exact ⟨_, .unreachableLabel (block?_renumber_of hb) hl (fun h => hr (reached_renumber.1 h))⟩
  | sitePosition hs hp =>
    have hplaced := congrArg (Option.map (Site.renumber σ)) hs
    rw [← List.getElem?_map, ← sitesAt_renumber] at hplaced
    exact ⟨_, .sitePosition hplaced (hp.imp_left σ.injective.ne)⟩
  | duplicateSite h =>
    rw [List.duplicate_iff_two_le_count, ← ids_renumber (σ := σ).count_eq,
      ← List.duplicate_iff_two_le_count] at h
    exact ⟨_, .duplicateSite h⟩
  | untypedTemporary hs hn h => exact ⟨_, .untypedTemporary (mem_allSites_renumber.2 hs) hn h⟩
  | unknownTempType hs hn hk ht hm hc =>
    exact ⟨_, .unknownTempType (mem_allSites_renumber.2 hs) hn hk ht hm hc⟩
  | unknownBinding hs hn hb =>
    exact ⟨_, .unknownBinding (mem_allSites_renumber.2 hs) hn (binding?_renumber_none hb)⟩
  | missingTarget hs hk ht => exact ⟨_, .missingTarget (mem_allSites_renumber.2 hs) hk ht⟩
  | unknownRegionBlocks hb hr hid h =>
    exact ⟨_, .unknownRegionBlocks (binding?_renumber_of hb) (congrArg (Option.map (List.map σ)) hr)
      (List.mem_map_of_mem hid) ((hasBlock_renumber _).trans h)⟩
  | declOutsideRegion hb hs hn hk hout =>
    exact ⟨_, .declOutsideRegion (binding?_renumber_of hb) (mem_allSites_renumber.2 hs) hn hk
      ((Binding.inRegion_renumber _ _).trans hout)⟩
  | unknownBindingType hm hb hc => exact ⟨_, .unknownBindingType hm (binding?_renumber_of hb) hc⟩
  | badPath hm hb hc hs hn he =>
    exact ⟨_, .badPath hm (binding?_renumber_of hb) hc (mem_allSites_renumber.2 hs) hn he⟩
  | undeclaredParam hp h =>
    refine ⟨_, .undeclaredParam hp fun b' hb' => ?_⟩
    rw [binding?_renumber] at hb'
    obtain ⟨b, hb, rfl⟩ := Option.map_eq_some_iff.1 hb'
    exact h b hb
  | forwardOutOfRange hi h => exact ⟨_, .forwardOutOfRange hi h⟩
  | forwardNotMoveRef hi hlt hname hb hmode =>
    exact ⟨_, .forwardNotMoveRef hi hlt hname (binding?_renumber_of hb) hmode⟩
  | unknownCapture hinner hname hb => exact ⟨_, .unknownCapture hinner hname (binding?_renumber_none hb)⟩

theorem findings_renumber {model : Option TypeModel} (h : f.findings model = []) :
    (f.renumber σ).findings model = [] := by
  obtain ⟨hentry, hnone⟩ := findings_eq_nil_iff.1 h
  refine findings_eq_nil_iff.2 ⟨(hasBlock_renumber _).trans hentry, fun d hd => ?_⟩
  obtain ⟨d', hd'⟩ := exists_flawed_renumber (σ := σ.symm) hd
  rw [renumber_symm] at hd'
  exact hnone d' hd'

theorem validate_renumber {model : Option TypeModel} (h : f.validate model = .ok []) :
    (f.renumber σ).validate model = .ok [] := by
  obtain ⟨hrange, -⟩ := validate_eq_ok.1 h
  exact validate_of_findings (findings_renumber (findings_of_validate h rfl))
    fun hentry => hrange ((hasBlock_renumber _).symm.trans hentry)

end Function
end MovePlan
