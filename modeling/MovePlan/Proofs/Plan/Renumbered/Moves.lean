import MovePlan.Proofs.Plan.Renumbered.Decisions

set_option autoImplicit false

namespace MovePlan
namespace Function
variable {σ : Equiv.Perm BlockId} {f : Function} {m : TypeModel} {settings : Settings}
  {facts facts' : LastUseFacts} {s : Site}
  {place : Place} {b : Binding} {moves moves' : List SiteId} {r r' : PlaceStates} {name : String}

/-- The region leads from `a` to `c`. -/
def LeadsInside (f : Function) (b : Binding) (a c : BlockId) : Prop :=
  ∃ es, f.Walk a es c ∧ ∀ e ∈ es, b.inRegion e.dst = true

theorem leadsInside_renumber {a c : BlockId} :
    (f.renumber σ).LeadsInside (b.renumber σ) (σ a) (σ c) ↔ f.LeadsInside b a c := by
  have hleads : ∀ {σ : Equiv.Perm BlockId} {f : Function} {b : Binding} {a c : BlockId},
      f.LeadsInside b a c → (f.renumber σ).LeadsInside (b.renumber σ) (σ a) (σ c) := by
    rintro σ f b a c ⟨es, hw, hin⟩
    refine ⟨_, walk_renumber hw, fun e he => ?_⟩
    obtain ⟨x, hx, rfl⟩ := List.mem_map.1 he
    exact (Binding.inRegion_renumber _ _).trans (hin x hx)
  exact ⟨fun h => by simpa using hleads (σ := σ.symm) h, hleads⟩

theorem edgeCount_renumber : (f.renumber σ).edgeCount = f.edgeCount := by
  rw [edgeCount, edgeCount, OrderedMap.values, OrderedMap.values, entries_renumber, List.map_map,
    List.foldr_map, List.foldr_map]
  simp only [Function.comp_apply, Block.renumber, List.length_map]

theorem mem_visitInside_renumber {fuel : ℕ} {stack : List BlockId} {c : BlockId}
    (hfuel : stack.length + f.edgeCount < fuel) :
    σ c ∈ (f.renumber σ).visitInside (b.renumber σ) fuel (stack.map σ) [] ↔
      c ∈ f.visitInside b fuel stack [] := by
  rw [mem_visitInside_iff hfuel, mem_visitInside_iff (by rwa [List.length_map, edgeCount_renumber]),
    hasBlock_renumber]
  refine and_congr_right fun _ => ⟨fun ⟨a, ha, h⟩ => ?_, fun ⟨a, ha, h⟩ => ?_⟩
  · obtain ⟨a, hmem, rfl⟩ := List.mem_map.1 ha
    exact ⟨a, hmem, leadsInside_renumber.1 h⟩
  · exact ⟨σ a, List.mem_map_of_mem ha, leadsInside_renumber.2 h⟩

theorem any_declares_renumber (name : String) (sites : List Site) :
    (sites.map (Site.renumber σ)).any (declares name) = sites.any (declares name) := List.any_map

theorem declaredInside_renumber (blk : Block) : ((f.renumber σ).visitInside (b.renumber σ)
        ((f.renumber σ).edgeCount + (blk.renumber σ).edges.length + 1)
        ((blk.renumber σ).successors.filter (b.renumber σ).inRegion) []).any
          (fun id => ((f.renumber σ).sitesAt id).any (declares name)) =
      (f.visitInside b (f.edgeCount + blk.edges.length + 1) (blk.successors.filter b.inRegion) []).any
        fun id => (f.sitesAt id).any (declares name) := by
  have hstack : (blk.renumber σ).successors.filter (b.renumber σ).inRegion =
      (blk.successors.filter b.inRegion).map σ := by
    simp only [Block.successors, Block.renumber, List.map_map, List.filter_map, Function.comp_def,
      Edge.renumber, Binding.inRegion_renumber]
  have hfuel : (blk.successors.filter b.inRegion).length + f.edgeCount <
      f.edgeCount + blk.edges.length + 1 := by
    have hle : (blk.successors.filter b.inRegion).length ≤ blk.edges.length :=
      (List.length_filter_le _ _).trans_eq (List.length_map _)
    omega
  rw [hstack, edgeCount_renumber, show (blk.renumber σ).edges.length = blk.edges.length from
    List.length_map _, Bool.eq_iff_iff, List.any_eq_true, List.any_eq_true]
  constructor
  · rintro ⟨id', hid, hd⟩
    obtain ⟨id, rfl⟩ := σ.surjective id'
    rw [sitesAt_renumber, any_declares_renumber] at hd
    exact ⟨id, (mem_visitInside_renumber hfuel).1 hid, hd⟩
  · rintro ⟨id, hid, hd⟩
    refine ⟨σ id, (mem_visitInside_renumber hfuel).2 hid, ?_⟩
    rwa [sitesAt_renumber, any_declares_renumber]

theorem dominatesExits_renumber {exits exits' : List ScopeExit}
    (hreached : ∀ x ∈ exits, f.Reached x.block)
    (hexits : ∀ x, x ∈ exits' ↔ x ∈ exits.map (ScopeExit.renumber σ)) {v : Bool}
    (h : f.dominatesExits f.dominators b s exits = .ok v) :
    (f.renumber σ).dominatesExits (f.renumber σ).dominators (b.renumber σ) (s.renumber σ) exits' =
      .ok v := by
  have hall : (exits'.all fun x => (f.renumber σ).dominators.dominates (s.renumber σ).block x.block) =
      exits.all fun x => f.dominators.dominates s.block x.block := by
    rw [Bool.eq_iff_iff, List.all_eq_true, List.all_eq_true]
    simp only [hexits, List.forall_mem_map]
    refine forall₂_congr fun x hx => ?_
    exact (dominates_iff (reached_renumber.2 (hreached x hx))).trans
      (alwaysThrough_renumber.trans (dominates_iff (hreached x hx)).symm)
  rw [dominatesExits] at h ⊢
  rw [hall]
  split at h
  next hno => rw [if_pos hno, ← h]
  next hyes =>
  rw [if_neg hyes]
  obtain ⟨blk, hblk, h⟩ := bind_eq_ok.1 h
  have hhere : entriesFrom (blk.renumber σ).sites ((s.renumber σ).index + 1) =
      (entriesFrom blk.sites (s.index + 1)).map (Site.renumber σ) := by
    simp only [entriesFrom, Block.renumber, Site.renumber_index, List.length_map, List.map_drop]
  refine bind_eq_ok.2 ⟨_, getBlock_renumber hblk, ?_⟩
  simp only [hhere, any_declares_renumber, declaredInside_renumber]
  exact h

theorem anyDominates_renumber {exits exits' : List ScopeExit}
    (hreached : ∀ x ∈ exits, f.Reached x.block)
    (hexits : ∀ x, x ∈ exits' ↔ x ∈ exits.map (ScopeExit.renumber σ)) {sites : List Site} {v : Bool}
    (h : f.anyDominates f.dominators b exits sites = .ok v) :
    (f.renumber σ).anyDominates (f.renumber σ).dominators (b.renumber σ) exits'
      (sites.map (Site.renumber σ)) = .ok v := by
  induction sites with
  | nil => exact h
  | cons s sites ih =>
    obtain ⟨first, hfirst, h⟩ := bind_eq_ok.1 h
    refine bind_eq_ok.2 ⟨first, dominatesExits_renumber hreached hexits hfirst, ?_⟩
    cases first with
    | true => exact h
    | false => exact ih h

theorem SameStates.mem_exits (h : SameStates σ f r r') (x : ScopeExit) :
    x ∈ r'.exitStates.map Prod.fst ↔ x ∈ (r.exitStates.map Prod.fst).map (ScopeExit.renumber σ) := by
  have hmap : (r.exitStates.map Prod.fst).map (ScopeExit.renumber σ) =
      (r.exitStates.map fun e => (e.1.renumber σ, e.2)).map Prod.fst := by
    rw [List.map_map, List.map_map]
    rfl
  rw [hmap, List.mem_map, List.mem_map]
  simp only [h.exits]

theorem SameStates.mem_states (h : SameStates σ f r r') (st : MoveState) :
    st ∈ r'.exitStates.map Prod.snd ↔ st ∈ r.exitStates.map Prod.snd := by
  have hmap : r.exitStates.map Prod.snd =
      (r.exitStates.map fun e => (e.1.renumber σ, e.2)).map Prod.snd := by
    rw [List.map_map]
    rfl
  rw [hmap, List.mem_map, List.mem_map]
  simp only [h.exits]

theorem isEmpty_congr {α : Type} {xs ys : List α} (h : ∀ x, x ∈ xs ↔ x ∈ ys) : xs.isEmpty = ys.isEmpty := by
  rw [Bool.eq_iff_iff]
  simp only [List.isEmpty_iff, List.eq_nil_iff_forall_not_mem, h]

theorem shortcut_renumber (hsame : SameStates σ f r r') {sites : List Site} {v : Bool}
    (h : f.shortcut f.dominators b r sites = .ok v) :
    (f.renumber σ).shortcut (f.renumber σ).dominators (b.renumber σ) r'
      (sites.map (Site.renumber σ)) = .ok v := by
  have hexits : (r'.exitStates.map Prod.fst).isEmpty = (r.exitStates.map Prod.fst).isEmpty :=
    (isEmpty_congr hsame.mem_exits).trans List.isEmpty_map
  have hreinits : ((f.renumber σ).reinits r').isEmpty = (f.reinits r).isEmpty :=
    (reinits_renumber hsame).isEmpty_eq.trans List.isEmpty_map
  rw [shortcut] at h ⊢
  rw [hexits, hreinits, List.isEmpty_map]
  split at h
  next hskip => rw [if_pos hskip, ← h]
  next hskip =>
    rw [if_neg hskip]
    refine anyDominates_renumber (fun x hx => ?_) hsame.mem_exits h
    obtain ⟨e, he, rfl⟩ := List.mem_map.1 hx
    exact hsame.reached e he

end Function

end MovePlan
