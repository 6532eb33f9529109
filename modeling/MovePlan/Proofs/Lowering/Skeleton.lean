import Mathlib.Data.List.Nodup
import MovePlan.Proofs.Flow.Declared
import MovePlan.Proofs.Lowering.Prologue
import MovePlan.Proofs.Plan.Flags

set_option autoImplicit false

namespace MovePlan

theorem foldl_append_new {α : Type} [BEq α] [LawfulBEq α] {seen xs : List α} (h : (seen ++ xs).Nodup) :
    xs.foldl (fun seen x => if x ∈ seen then seen else seen ++ [x]) seen = seen ++ xs := by
  induction xs generalizing seen with
  | nil => simp
  | cons x xs ih =>
    have hnew : x ∉ seen := fun hx => List.disjoint_of_nodup_append h hx List.mem_cons_self
    rw [List.append_cons] at h ⊢
    rw [List.foldl_cons, if_neg hnew]
    exact ih h

theorem nodup_filterMap {α β : Type} {g : α → Option β} {xs : List α} (h : xs.Nodup)
    (hinj : ∀ a ∈ xs, ∀ b ∈ xs, ∀ y, g a = some y → g b = some y → a = b) :
    (xs.filterMap g).Nodup := by
  induction xs with
  | nil => exact List.nodup_nil
  | cons x xs ih =>
    obtain ⟨hx, hxs⟩ := List.nodup_cons.1 h
    have hrest := ih hxs fun a ha b hb =>
      hinj a (List.mem_cons_of_mem _ ha) b (List.mem_cons_of_mem _ hb)
    cases hg : g x with
    | none => rwa [List.filterMap_cons_none hg]
    | some y =>
      rw [List.filterMap_cons_some hg, List.nodup_cons]
      refine ⟨fun hmem => ?_, hrest⟩
      obtain ⟨a, ha, hay⟩ := List.mem_filterMap.1 hmem
      exact hx (hinj x List.mem_cons_self a (List.mem_cons_of_mem _ ha) y hg hay ▸ ha)

namespace Function
variable {f : Function} {p : FunctionPlan} {m : TypeModel} {settings : Settings}

theorem notMem_params_of_decl (wf : f.WellFormed) (hone : f.DeclaredOnce) {n : String} {s : Site}
    (hs : s ∈ f.allSites) (hn : s.binding = some n) (hk : s.kind = .decl) : n ∉ f.params := by
  intro hparam
  obtain ⟨b, hb, hlocal⟩ := hone.binding_of_decl hs hn hk
  obtain ⟨b', hb', hparam⟩ := wf.params hparam
  rw [hb, Option.some.injEq] at hb'
  rw [hb', hparam] at hlocal
  cases hlocal

theorem nodup_lifetimeOrder (wf : f.WellFormed) (hone : f.DeclaredOnce) : f.lifetimeOrder.Nodup := by
  have hsites : f.allSites.Nodup := wf.ids.of_map _
  have hdecls : ((f.allSites.filter (·.kind = .decl)).filterMap Site.binding).Nodup := by
    refine nodup_filterMap (hsites.filter _) fun s hs t ht n hn hn' => ?_
    rw [List.mem_filter, decide_eq_true_eq] at hs ht
    exact hone.decl_unique hs.1 ht.1 hn hs.2 hn' ht.2
  refine List.nodup_append.2 ⟨hone.params_nodup, hdecls, fun n hn n' hn' heq => ?_⟩
  subst heq
  obtain ⟨s, hs, hsn⟩ := List.mem_filterMap.1 hn'
  rw [List.mem_filter, decide_eq_true_eq] at hs
  exact notMem_params_of_decl wf hone hs.1 hsn hs.2 hn

theorem bindingOrder_eq (wf : f.WellFormed) (hone : f.DeclaredOnce) :
    f.bindingOrder = f.lifetimeOrder.map some := by
  -- a site without a binding is a temporary, and makes no declaration
  have hnamed : ∀ s ∈ f.allSites.filter (·.kind = .decl), s.binding.isSome = true := by
    intro s hs
    rw [List.mem_filter, decide_eq_true_eq] at hs
    cases hn : s.binding with
    | some n => rfl
    | none =>
      rw [wf.temporary hs.1 hn] at hs
      exact absurd hs.2 (by decide)
  have hdecls : (f.allSites.filter (·.kind = .decl)).map Site.binding =
      ((f.allSites.filter (·.kind = .decl)).filterMap Site.binding).map some := by
    generalize f.allSites.filter (·.kind = .decl) = decls at hnamed
    induction decls with
    | nil => rfl
    | cons s decls ih =>
      obtain ⟨n, hn⟩ := Option.isSome_iff_exists.1 (hnamed s List.mem_cons_self)
      rw [List.filterMap_cons_some hn, List.map_cons, List.map_cons, hn,
        ih fun t ht => hnamed t (List.mem_cons_of_mem _ ht)]
  have hnodup := (nodup_lifetimeOrder wf hone).map (Option.some_injective _)
  rw [lifetimeOrder, List.map_append] at hnodup
  rw [bindingOrder, hdecls, foldl_append_new hnodup, lifetimeOrder, List.map_append]

def namesWhere (f : Function) (test : Binding → Bool) : List String :=
  f.lifetimeOrder.filter fun n => ((f.binding? n).map test).getD false

theorem eq_namesWhere {test : Binding → Bool} {names : List String}
    (h : f.bindingsWhere test f.lifetimeOrder = .ok names) : names = f.namesWhere test := bindingsWhere_eq h

structure Listed (f : Function) (bindings : List (String × Binding)) : Prop where
  names : bindings.map Prod.fst = f.lifetimeOrder
  binding : ∀ x ∈ bindings, f.binding? x.1 = some x.2

theorem exists_listed (wf : f.WellFormed) (hone : f.DeclaredOnce) :
    ∃ bindings, (f.bindingOrder.mapM fun n => do
      let name ← optionOr (.noBinding none) n
      return (name, ← f.getBinding name)) = .ok bindings ∧ f.Listed bindings := by
  have hall : ∀ names : List String, (∀ n ∈ names, ∃ b, f.binding? n = some b) →
      ∃ bindings, ((names.map some).mapM fun n => do
        let name ← optionOr (.noBinding none) n
        return (name, ← f.getBinding name)) = .ok bindings ∧ bindings.map Prod.fst = names ∧
          ∀ x ∈ bindings, f.binding? x.1 = some x.2 := by
    intro names hnames
    induction names with
    | nil => exact ⟨[], rfl, rfl, by simp⟩
    | cons n names ih =>
      obtain ⟨b, hb⟩ := hnames n List.mem_cons_self
      obtain ⟨bindings, hok, hmap, hbinding⟩ := ih fun k hk => hnames k (List.mem_cons_of_mem _ hk)
      refine ⟨(n, b) :: bindings, mapM_eq_ok.2 (.cons ?_ (mapM_eq_ok.1 hok)), ?_, ?_⟩
      · exact bind_eq_ok.2 ⟨n, rfl, bind_eq_ok.2 ⟨b, optionOr_eq_ok.2 hb, rfl⟩⟩
      · rw [List.map_cons, hmap]
      · intro x hx
        rcases List.mem_cons.1 hx with rfl | hx
        · exact hb
        · exact hbinding x hx
  rw [bindingOrder_eq wf hone]
  obtain ⟨bindings, hok, hnames, hbinding⟩ := hall f.lifetimeOrder fun n hn => exists_binding wf hn
  exact ⟨bindings, hok, hnames, hbinding⟩

theorem Listed.filter {bindings : List (String × Binding)} (h : f.Listed bindings)
    (test : Binding → Bool) :
    (bindings.filter fun x => test x.2).map Prod.fst = f.namesWhere test := by
  rw [namesWhere, ← h.names, List.filter_map]
  refine congrArg (List.map Prod.fst) (List.filter_congr fun x hx => ?_)
  rw [Function.comp_apply, h.binding x hx]
  rfl

end Function

theorem Disposal.kind_eq_never {x : Disposal} : x.kind = .never ↔ x = .never := by
  cases x <;> simp [Disposal.kind]

theorem Disposal.flag?_eq_some {x : Disposal} {flag : DropFlag} :
    x.flag? = some flag ↔ x = .guarded flag := by
  cases x <;> simp [Disposal.flag?]

theorem Run.owes_of_never (r : Run) {d : DestructionPlan} (h : d.disposal.kind = .never) :
    r.owes d = false := by
  rw [owes, Disposal.kind_eq_never.1 h]

/-- The destructor of a whole place, or of what is left of it. -/
def DestructionPlan.callee (d : DestructionPlan) (type : String) : String :=
  if d.isPartial then s!"{type}.drop_rest" else s!"{type}.drop"

def DestructionPlan.dropOn (d : DestructionPlan) (binding type : String) : Drop where
  callee := d.callee type
  binding := binding
  guard := d.disposal.flag?.map DropFlag.name

namespace FunctionPlan
variable {p : FunctionPlan} {m : TypeModel} {l : Layout} {names : List String} {ds : List Drop}

theorem exists_plan_of_mem_flags {flag : DropFlag} (h : flag ∈ p.flags) :
    ∃ place d, p.destruction.get? place = some d ∧ d.disposal = .guarded flag := by
  obtain ⟨d, hd, hflag⟩ := List.mem_filterMap.1 h
  obtain ⟨⟨place, d⟩, hmem, rfl⟩ := List.mem_map.1 hd
  exact ⟨place, d, (OrderedMap.get?_eq_some_iff _ _ _).2 hmem, Disposal.flag?_eq_some.1 hflag⟩

/-- The planned places of bindings whose lifetimes end together, in the order in which they end. -/
def ended (p : FunctionPlan) (names : List String) : List (Place × DestructionPlan) :=
  names.reverse.flatMap p.plansOf

theorem mem_ended {x : Place × DestructionPlan} :
    x ∈ p.ended names ↔ x.1.binding ∈ names ∧ p.destruction.get? x.1 = some x.2 := by
  simp only [ended, List.mem_flatMap, List.mem_reverse, mem_plansOf]
  constructor
  · rintro ⟨_, hn, hx, rfl⟩
    exact ⟨hn, hx⟩
  · rintro ⟨hn, hx⟩
    exact ⟨_, hn, hx, rfl⟩

/-- The call that destroys a place, with the slots of the bindings given. -/
def destructorCall (p : FunctionPlan) (m : TypeModel) (slot : String → ValueNo) (place : Place) :
    Option Call := do
  let d ← p.destruction.get? place
  let type ← (m.typeName d.type).toOption
  return { callee := d.callee type, args := [.slot (slot place.binding)] }

def Named (p : FunctionPlan) (m : TypeModel) : Prop :=
  ∀ {place : Place} {d : DestructionPlan}, p.destruction.get? place = some d →
    d.disposal.kind ≠ .never → ∃ type, m.typeName d.type = .ok type

theorem dropOf_eq_ok {n : String} {d : DestructionPlan} {x : Option Drop} :
    dropOf m n d = .ok x ↔ (d.disposal.kind = .never ∧ x = none) ∨
      (d.disposal.kind ≠ .never ∧ ∃ type, m.typeName d.type = .ok type ∧ x = some (d.dropOn n type)) := by
  unfold dropOf
  by_cases hkind : d.disposal.kind = .never
  · rw [if_pos hkind, pure_eq_ok]
    simp [hkind, eq_comm]
  · rw [if_neg hkind, bind_eq_ok]
    simp only [liftType_eq_ok, pure_eq_ok, hkind, false_and, false_or, ne_eq, not_false_eq_true, true_and]
    exact exists_congr fun type => and_congr_right fun _ => eq_comm

theorem drops_eq_ok (h : p.drops m names = .ok ds) :
    ∃ xs, List.Forall₂ (fun x y => dropOf m x.1.binding x.2 = .ok y) (p.ended names) xs ∧
      ds = xs.filterMap id := by
  obtain ⟨all, hall, h⟩ := bind_eq_ok.1 h
  rw [pure_eq_ok] at h
  refine ⟨all.flatten, forall₂_flatMap ((mapM_eq_ok.1 hall).imp fun n xs hxs => ?_), h.symm⟩
  refine forall₂_imp_of_mem (mapM_eq_ok.1 hxs) fun e he x hx => ?_
  rwa [(mem_plansOf.1 he).2]

theorem exists_drops (hnamed : p.Named m) (names : List String) : ∃ ds, p.drops m names = .ok ds := by
  refine exists_bind (exists_mapM fun n _ => exists_mapM fun e he => ?_) fun _ _ => exists_pure
  by_cases hkind : e.2.disposal.kind = .never
  · exact ⟨none, dropOf_eq_ok.2 (.inl ⟨hkind, rfl⟩)⟩
  · obtain ⟨type, htype⟩ := hnamed (mem_plansOf.1 he).1 hkind
    exact ⟨_, dropOf_eq_ok.2 (.inr ⟨hkind, type, htype, rfl⟩)⟩

/-- The drops at the end of several lifetimes, which are left out where nothing can be owed. -/
def Pays (p : FunctionPlan) (m : TypeModel) (names : List String) (ds : List Drop) : Prop :=
  p.drops m names = .ok ds ∨ (ds = [] ∧ names.any p.owes = false)

/-- The drops destroy the ended places, in the same order, but for those that are never destroyed. -/
def DropsFollow (p : FunctionPlan) (m : TypeModel) (names : List String) (ds : List Drop) : Prop :=
  List.Forall₂ (fun x y => ∃ type, m.typeName x.2.type = .ok type ∧ y = x.2.dropOn x.1.binding type)
    ((p.ended names).filter fun x => x.2.disposal.kind ≠ .never) ds

theorem Pays.follow (h : p.Pays m names ds) : p.DropsFollow m names ds := by
  unfold DropsFollow
  rcases h with h | ⟨rfl, howes⟩
  · obtain ⟨xs, hall, rfl⟩ := drops_eq_ok h
    -- plan by plan: each one makes its own drop or none
    generalize p.ended names = es at hall
    clear h
    induction hall with
    | nil => exact .nil
    | @cons e x es xs hx _ ih =>
      rcases dropOf_eq_ok.1 hx with ⟨hkind, rfl⟩ | ⟨hkind, type, htype, rfl⟩
      · rwa [List.filter_cons_of_neg (by simpa using hkind), List.filterMap_cons_none rfl]
      · rw [List.filter_cons_of_pos (by simpa using hkind)]
        exact .cons ⟨type, htype, rfl⟩ ih
  · rw [List.any_eq_false] at howes
    -- the code leaves out drops only where the plan has nothing to destroy
    have hnone : ((p.ended names).filter fun x => x.2.disposal.kind ≠ .never) = [] := by
      rw [List.filter_eq_nil_iff]
      intro x hx hkind
      obtain ⟨hn, hd⟩ := mem_ended.1 hx
      exact howes _ hn (List.any_eq_true.2 ⟨x, mem_plansOf.2 ⟨hd, rfl⟩, hkind⟩)
    rw [hnone]
    exact .nil

theorem fires_dropOn {flags : FlagValues} {r : Run} (hflags : ∀ n, flags.get? n = r.flags.get? n)
    {d : DestructionPlan} (hkind : d.disposal.kind ≠ .never) (binding type : String) :
    (d.dropOn binding type).fires flags = r.owes d := by
  unfold Drop.fires Run.owes DestructionPlan.dropOn
  cases hdisposal : d.disposal with
  | never => exact absurd (Disposal.kind_eq_never.2 hdisposal) hkind
  | always => rfl
  | guarded flag => exact congrArg (Option.getD · false) (hflags flag.name)

theorem destructorCall_eq {place : Place} {d : DestructionPlan} {type : String}
    (hd : p.destruction.get? place = some d) (htype : m.typeName d.type = .ok type) :
    p.destructorCall m l.slot place = some (l.dropCall (d.dropOn place.binding type)) := by
  unfold destructorCall
  rw [hd, Option.bind_eq_bind, Option.bind_some, htype]
  rfl

/-- The drops that are made are those of the places that the run owes, in the same order. -/
theorem Pays.fired {flags : FlagValues} {r : Run} (h : p.Pays m names ds)
    (hflags : ∀ n, flags.get? n = r.flags.get? n) :
    ((ds.filter (Drop.fires flags)).map fun y => some (l.dropCall y)) =
      (r.owedPlaces p names).map (p.destructorCall m l.slot) := by
  have howed : r.owedPlaces p names = (((p.ended names).filter fun x => x.2.disposal.kind ≠ .never).filter
      fun x => r.owes x.2).map Prod.fst := by
    rw [List.filter_filter, Run.owedPlaces]
    refine congrArg (List.map Prod.fst) (List.filter_congr fun x _ => ?_)
    by_cases hkind : x.2.disposal.kind = .never
    · rw [r.owes_of_never hkind, Bool.false_and]
    · rw [decide_eq_true hkind, Bool.and_true]
  have hplanned : ∀ x ∈ (p.ended names).filter fun x => x.2.disposal.kind ≠ .never,
      p.destruction.get? x.1 = some x.2 ∧ x.2.disposal.kind ≠ .never := by
    intro x hx
    rw [List.mem_filter, decide_eq_true_eq] at hx
    exact ⟨(mem_ended.1 hx.1).2, hx.2⟩
  have hall : List.Forall₂ _ _ ds := h.follow
  rw [howed]
  generalize (p.ended names).filter (fun x => x.2.disposal.kind ≠ .never) = es at hall hplanned
  clear h howed
  induction hall with
  | nil => rfl
  | @cons x y es ds hx _ ih =>
    obtain ⟨type, htype, rfl⟩ := hx
    obtain ⟨hd, hkind⟩ := hplanned x List.mem_cons_self
    have hrest := ih fun x hx => hplanned x (List.mem_cons_of_mem _ hx)
    rw [List.filter_cons, List.filter_cons, fires_dropOn hflags hkind]
    split
    · rw [List.map_cons, List.map_cons, List.map_cons, destructorCall_eq hd htype, hrest]
    · exact hrest

theorem Pays.exists_dropOn (h : p.Pays m names ds) {y : Drop} (hy : y ∈ ds) :
    ∃ place d type, p.destruction.get? place = some d ∧ place.binding ∈ names ∧
      y = d.dropOn place.binding type := by
  obtain ⟨x, hx, type, _, rfl⟩ := exists_of_forall₂_right h.follow hy
  obtain ⟨hn, hd⟩ := mem_ended.1 (List.mem_filter.1 hx).1
  exact ⟨x.1, x.2, type, hd, hn, rfl⟩

theorem Pays.fits (h : p.Pays m names ds)
    (hslots : ∀ n ∈ names, ∃ c, lastWrite n l.slots = some c)
    (hflags : ∀ flag ∈ p.flags, ∃ c, lastWrite flag.name l.flags = some c) : ∀ y ∈ ds, y.Fits l := by
  intro y hy
  obtain ⟨place, d, type, hd, hn, rfl⟩ := h.exists_dropOn hy
  refine ⟨hslots _ hn, fun {k} hk => ?_⟩
  obtain ⟨flag, hflag, rfl⟩ := Option.map_eq_some_iff.1 hk
  exact hflags flag (mem_flags hd (Disposal.flag?_eq_some.1 hflag))

variable {f : Function} {bindings : List (String × Binding)}

/-- What an edge owes, where it leads. -/
def Covers (p : FunctionPlan) (m : TypeModel) (f : Function) (id : BlockId) (e : Edge) (y : Successor) :
    Prop :=
  y.dst = e.dst ∧ p.Pays m (f.namesWhere fun b => b.inRegion id && !b.inRegion e.dst) y.drops

structure Describes (p : FunctionPlan) (m : TypeModel) (f : Function) (x : SkeletonBlock) : Prop where
  steps : x.steps = (f.sitesAt x.id).flatMap p.siteSteps
  ret : ∀ {ds : List Drop}, x.ending = .ret ds →
    f.edgesAt x.id = [] ∧ p.Pays m (f.namesWhere (·.inRegion x.id)) ds
  go : ∀ {succs : List Successor}, x.ending = .go succs →
    f.edgesAt x.id ≠ [] ∧ List.Forall₂ (p.Covers m f x.id) (f.edgesAt x.id) succs

theorem covers_of_successor (hl : f.Listed bindings) {e : Edge} {y : Successor}
    (h : p.successor m bindings e = .ok y) : p.Covers m f e.src e y := by
  unfold successor at h
  rw [hl.filter fun b => b.inRegion e.src && !b.inRegion e.dst] at h
  dsimp only at h
  split at h
  · obtain ⟨ds, hds, h⟩ := bind_eq_ok.1 h
    rw [pure_eq_ok] at h
    subst h
    exact ⟨rfl, .inl hds⟩
  next howes =>
    rw [pure_eq_ok] at h
    subst h
    exact ⟨rfl, .inr ⟨rfl, by rwa [Bool.not_eq_true] at howes⟩⟩

theorem exists_successor (hnamed : p.Named m) (bindings : List (String × Binding)) (e : Edge) :
    ∃ y, p.successor m bindings e = .ok y := by
  unfold successor
  dsimp only
  split
  · exact exists_bind (exists_drops hnamed _) fun _ _ => exists_pure
  · exact exists_pure

theorem skeletonBlock_eq_ok {id : BlockId} {blk : Block} {x : SkeletonBlock} :
    p.skeletonBlock m bindings id blk = .ok x ↔ ∃ ending,
      (if blk.isExit then
        (p.drops m ((bindings.filter fun b => b.2.inRegion id).map Prod.fst)).map Ending.ret
      else (blk.edges.mapM (p.successor m bindings)).map Ending.go) = .ok ending ∧
        { id := id, steps := blk.sites.flatMap p.siteSteps, ending := ending } = x := by
  unfold skeletonBlock
  split
  · simp only [bind_eq_ok, pure_eq_ok]
  · simp only [bind_eq_ok, pure_eq_ok]

theorem describes_of_skeletonBlock (hl : f.Listed bindings) {id : BlockId} {blk : Block}
    (hb : f.block? id = some blk) (hsrc : ∀ e ∈ f.edgesAt id, e.src = id) {x : SkeletonBlock}
    (h : p.skeletonBlock m bindings id blk = .ok x) : x.id = id ∧ p.Describes m f x := by
  obtain ⟨ending, hending, rfl⟩ := skeletonBlock_eq_ok.1 h
  refine ⟨rfl, by rw [Function.sitesAt_eq hb], fun {ds} hds => ?_, fun {succs} hsuccs => ?_⟩
  · dsimp only at hds
    subst hds
    split at hending
    next hexit =>
      obtain ⟨ds', hdrops, heq⟩ := map_eq_ok.1 hending
      cases heq
      rw [hl.filter fun b => b.inRegion id] at hdrops
      exact ⟨(Function.edgesAt_eq hb).trans (List.isEmpty_iff.1 hexit), .inl hdrops⟩
    next =>
      obtain ⟨_, _, heq⟩ := map_eq_ok.1 hending
      cases heq
  · dsimp only at hsuccs
    subst hsuccs
    split at hending
    next =>
      obtain ⟨_, _, heq⟩ := map_eq_ok.1 hending
      cases heq
    next hexit =>
      obtain ⟨succs', hall, heq⟩ := map_eq_ok.1 hending
      cases heq
      rw [← Function.edgesAt_eq hb] at hall
      refine ⟨fun hnil => hexit ?_, forall₂_imp_of_mem (mapM_eq_ok.1 hall) fun e he y hy => ?_⟩
      · rw [Function.edgesAt_eq hb] at hnil
        exact List.isEmpty_iff.2 hnil
      · have hcovers := covers_of_successor hl hy
        rwa [hsrc e he] at hcovers

theorem exists_skeletonBlock (hnamed : p.Named m) (bindings : List (String × Binding)) (id : BlockId)
    (blk : Block) : ∃ x, p.skeletonBlock m bindings id blk = .ok x := by
  have hending : ∃ ending, (if blk.isExit then
      (p.drops m ((bindings.filter fun b => b.2.inRegion id).map Prod.fst)).map Ending.ret
      else (blk.edges.mapM (p.successor m bindings)).map Ending.go) = .ok ending := by
    split
    · obtain ⟨ds, hds⟩ := exists_drops hnamed ((bindings.filter fun b => b.2.inRegion id).map Prod.fst)
      exact ⟨_, map_eq_ok.2 ⟨ds, hds, rfl⟩⟩
    · obtain ⟨succs, hsuccs⟩ := exists_mapM fun e (_ : e ∈ blk.edges) => exists_successor hnamed bindings e
      exact ⟨_, map_eq_ok.2 ⟨succs, hsuccs, rfl⟩⟩
  obtain ⟨ending, hending⟩ := hending
  exact ⟨_, skeletonBlock_eq_ok.2 ⟨ending, hending, rfl⟩⟩

structure Sketches (p : FunctionPlan) (m : TypeModel) (f : Function) (sk : Skeleton) : Prop where
  slots : sk.slots = f.lifetimeOrder
  flags : sk.flags = p.flags.map fun flag => { name := flag.name, initially := flag.declSite.isNone }
  entry : sk.entry = f.entry
  ids : sk.ids = f.orderedBlocks
  blocks : ∀ x ∈ sk.blocks, p.Describes m f x

theorem exists_sketch (wf : f.WellFormed) (hone : f.DeclaredOnce)
    (hsrc : ∀ {id : BlockId} {e : Edge}, e ∈ f.edgesAt id → e.src = id) (hnamed : p.Named m) :
    ∃ sk, f.skeleton m p = .ok sk ∧ p.Sketches m f sk := by
  obtain ⟨entry, hentry⟩ := Function.hasBlock_iff.1 wf.entry
  obtain ⟨bindings, hbindings, hl⟩ := Function.exists_listed wf hone
  have hblocks : ∃ blocks, (f.orderedBlocks.mapM fun id => do
      p.skeletonBlock m bindings id (← f.getBlock id)) = .ok blocks := by
    refine exists_mapM fun id hid => ?_
    obtain ⟨blk, hb⟩ := Function.hasBlock_iff.1 (Function.mem_orderedBlocks.1 hid)
    exact exists_bind ⟨blk, optionOr_eq_ok.2 hb⟩ fun blk' _ => exists_skeletonBlock hnamed bindings id blk'
  obtain ⟨blocks, hblocks⟩ := hblocks
  have hdescribes : List.Forall₂ (fun id x => x.id = id ∧ p.Describes m f x) f.orderedBlocks blocks := by
    refine (mapM_eq_ok.1 hblocks).imp fun id x hx => ?_
    obtain ⟨blk, hb, hx⟩ := bind_eq_ok.1 hx
    exact describes_of_skeletonBlock hl (optionOr_eq_ok.1 hb) (fun e he => hsrc he) hx
  refine ⟨_, bind_eq_ok.2 ⟨entry, optionOr_eq_ok.2 hentry, bind_eq_ok.2 ⟨bindings, hbindings,
    bind_eq_ok.2 ⟨blocks, hblocks, rfl⟩⟩⟩, hl.names, rfl, rfl, ?_, fun x hx => ?_⟩
  · change blocks.map SkeletonBlock.id = f.orderedBlocks
    have hids : List.Forall₂ Eq (blocks.map SkeletonBlock.id) f.orderedBlocks :=
      List.forall₂_map_left_iff.2 (hdescribes.flip.imp fun _ _ hx => hx.1)
    rwa [List.forall₂_eq_eq_eq] at hids
  · obtain ⟨_, _, _, hx⟩ := exists_of_forall₂_right hdescribes hx
    exact hx

theorem marker_ne_choose (p : FunctionPlan) (s : Site) : p.marker s ≠ "movec.choose" := by
  unfold marker
  split
  · decide
  · split
    next d _ => cases d.kind <;> decide
    next => decide

theorem mem_clearedAt_iff {site : SiteId} {n : String} :
    n ∈ p.clearedAt site ↔ n ∈ p.clearedBefore site ∨ n ∈ p.clearedAfter site := by
  unfold clearedAt clearedBefore clearedAfter
  simp only [List.mem_flatMap, List.mem_map, List.mem_filter, Bool.and_eq_true, Bool.not_eq_true']
  constructor
  · rintro ⟨flag, hflag, c, ⟨hc, hsite⟩, hn⟩
    cases hcall : c.beforeCall with
    | true => exact .inl ⟨flag, hflag, c, ⟨hc, hsite, hcall⟩, hn⟩
    | false => exact .inr ⟨flag, hflag, c, ⟨hc, hsite, hcall⟩, hn⟩
  · rintro (⟨flag, hflag, c, ⟨hc, hsite, -⟩, hn⟩ | ⟨flag, hflag, c, ⟨hc, hsite, -⟩, hn⟩)
    · exact ⟨flag, hflag, c, ⟨hc, hsite⟩, hn⟩
    · exact ⟨flag, hflag, c, ⟨hc, hsite⟩, hn⟩

theorem exists_flag_of_clearedAt {s : Site} {n : String} (h : n ∈ p.clearedAt s.id) :
    ∃ flag ∈ p.flags, flag.name = n ∧ flag.ClearsAt s := by
  obtain ⟨flag, hflag, h⟩ := List.mem_flatMap.1 h
  obtain ⟨c, hc, hn⟩ := List.mem_map.1 h
  rw [List.mem_filter, decide_eq_true_eq] at hc
  exact ⟨flag, hflag, hn, c, hc⟩

theorem exists_flag_of_setAt {s : Site} {n : String} (h : n ∈ p.setAt s.id) :
    ∃ flag ∈ p.flags, flag.name = n ∧ flag.SetsAt s := by
  obtain ⟨flag, hflag, h⟩ := List.mem_flatMap.1 h
  rcases List.mem_append.1 h with h | h
  · split at h
    next hdecl => exact ⟨flag, hflag, (List.mem_singleton.1 h).symm, .inl hdecl⟩
    next => cases h
  · obtain ⟨c, hc, hn⟩ := List.mem_map.1 h
    rw [List.mem_filter, decide_eq_true_eq] at hc
    exact ⟨flag, hflag, hn, .inr ⟨c, hc⟩⟩

theorem setAfter_eq (p : FunctionPlan) (site : SiteId) : p.setAfter site = p.setAt site := rfl

theorem fits_siteSteps {s : Site} (hflags : ∀ flag ∈ p.flags, ∃ c, lastWrite flag.name l.flags = some c) :
    ∀ y ∈ p.siteSteps s, y.Fits l := by
  have hcleared : ∀ n ∈ p.clearedAt s.id, ∃ c, lastWrite n l.flags = some c := by
    intro n hn
    obtain ⟨flag, hflag, rfl, _⟩ := exists_flag_of_clearedAt hn
    exact hflags flag hflag
  intro y hy
  simp only [siteSteps, List.mem_append, List.mem_map, List.mem_singleton] at hy
  rcases hy with ((⟨n, hn, rfl⟩ | rfl) | ⟨n, hn, rfl⟩) | ⟨n, hn, rfl⟩
  · exact hcleared n (mem_clearedAt_iff.2 (.inl hn))
  · exact marker_ne_choose p s
  · obtain ⟨flag, hflag, rfl, _⟩ := exists_flag_of_setAt hn
    exact hflags flag hflag
  · exact hcleared n (mem_clearedAt_iff.2 (.inr hn))

/-- All names in the blocks of a skeleton have cells, and all edges lead to blocks. -/
theorem Sketches.fits (wf : f.WellFormed) {sk : Skeleton} (h : p.Sketches m f sk)
    (globals : OrderedMap String Global) : ∀ x ∈ sk.blocks, x.Fits (sk.layout globals) := by
  have hslots : ∀ test, ∀ n ∈ f.namesWhere test, ∃ c, lastWrite n (sk.layout globals).slots = some c := by
    intro test n hn
    rw [Skeleton.layout_slots, h.slots]
    obtain ⟨i, hi⟩ := List.mem_iff_getElem?.1 (List.mem_filter.1 hn).1
    exact exists_lastWrite (List.mem_zipIdx_iff_getElem?.2 hi)
  have hflags : ∀ flag ∈ p.flags, ∃ c, lastWrite flag.name (sk.layout globals).flags = some c := by
    intro flag hflag
    have hname : flag.name ∈ (sk.layout globals).flags.map Prod.fst := by
      rw [Skeleton.map_layout_flags, h.flags, List.map_map]
      exact List.mem_map_of_mem hflag
    obtain ⟨⟨n, c⟩, hmem, rfl⟩ := List.mem_map.1 hname
    exact exists_lastWrite hmem
  intro x hx
  have hdescribes := h.blocks x hx
  refine ⟨Skeleton.lists_block (List.mem_map_of_mem hx), fun y hy => ?_, fun hret => ?_,
    fun hgo y hy => ?_⟩
  · rw [hdescribes.steps] at hy
    obtain ⟨s, _, hy⟩ := List.mem_flatMap.1 hy
    exact fits_siteSteps hflags y hy
  · exact (hdescribes.ret hret).2.fits (hslots _) hflags
  · obtain ⟨e, he, hdst, hpays⟩ := exists_of_forall₂_right (hdescribes.go hgo).2 hy
    refine ⟨Skeleton.lists_block ?_, hpays.fits (hslots _) hflags⟩
    rw [hdst, h.ids, Function.mem_orderedBlocks]
    exact wf.target he

end FunctionPlan
end MovePlan
