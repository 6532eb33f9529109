import MovePlan.Proofs.Flow.Events
import MovePlan.Proofs.Lowering.Skeleton
import MovePlan.Proofs.Plan.Total

set_option autoImplicit false

/-!
# The code does what the run does

The code of a planned function enters the blocks of a run one by one, and calls the destructors of the
places that the run destroys. While it enters a block its flags hold what the flags of the run hold.
-/
namespace MovePlan
open Draft Machine

def Choice.edges : Choice → List Int
  | always e => [e]
  | visits es => es

def Choices.NonNegative (c : Choices) : Prop := ∀ id, ∀ e ∈ (c.choiceAt id).edges, 0 ≤ e

theorem Choices.choiceAt_visit (c : Choices) (id x : BlockId) :
    (c.visit id).choiceAt x = if x = id then (c.choiceAt id).next else c.choiceAt x := by
  unfold visit choiceAt
  rw [OrderedMap.get?_put]
  split <;> rfl

theorem Choice.edges_next (c : Choice) : ∀ e ∈ c.next.edges, e ∈ c.edges := by
  rcases c with e | _ | ⟨e, _ | ⟨e', es⟩⟩
  · exact fun _ h => h
  · exact fun _ h => h
  · exact fun _ h => h
  · exact fun _ h => List.mem_cons_of_mem _ h

theorem Choices.NonNegative.visit {c : Choices} (h : c.NonNegative) (id : BlockId) :
    (c.visit id).NonNegative := by
  intro x e he
  rw [Choices.choiceAt_visit] at he
  split at he
  · exact h id e (Choice.edges_next _ e he)
  · exact h x e he

theorem Function.position_of_chooseEdge {choice : Choice} (h : ∀ e ∈ choice.edges, 0 ≤ e) {id : BlockId}
    {edges : List Edge} {e : Edge} (he : chooseEdge choice id edges = .ok e) :
    ∃ i : ℕ, choice.edge? = some (i : Int) ∧ edges[i]? = some e := by
  unfold chooseEdge at he
  split at he
  · cases he
  next c hc =>
  split at he
  · cases he
  split at he
  · cases he
  next e' hentry =>
  rw [Except.ok.injEq] at he
  subst he
  have hmem : c ∈ choice.edges := by
    rcases choice with e | _ | ⟨e, es⟩
    · rw [Choice.edge?, Option.some.injEq] at hc
      rw [← hc]
      exact List.mem_singleton_self e
    · cases hc
    · rw [Choice.edge?, List.head?_cons, Option.some.injEq] at hc
      rw [← hc]
      exact List.mem_cons_self
  have hle := h c hmem
  rw [entryAt?, if_pos hle] at hentry
  exact ⟨c.toNat, by rw [hc, Int.toNat_of_nonneg hle], hentry⟩

def FunctionPlan.Apart (p : FunctionPlan) (f : Function) : Prop :=
  ∀ s ∈ f.allSites, ∀ n ∈ p.clearedAt s.id, n ∉ p.setAt s.id

theorem View.afterStep_stores (v : View) (names : List String) (bit : Bool) :
    (names.map (Step.store · bit)).foldl View.afterStep v =
      { v with flags := FlagValues.setAll v.flags names bit } := by
  induction names generalizing v with
  | nil => rfl
  | cons n names ih => exact ih _

theorem View.flags_siteSteps (v : View) (p : FunctionPlan) (s : Site) :
    ((p.siteSteps s).foldl View.afterStep v).flags =
      ((FlagValues.setAll v.flags (p.clearedBefore s.id) false).setAll (p.setAfter s.id) true).setAll
        (p.clearedAfter s.id) false := by
  unfold FunctionPlan.siteSteps
  rw [List.foldl_append, List.foldl_append, List.foldl_append, View.afterStep_stores,
    View.afterStep_stores, View.afterStep_stores]
  rfl

namespace FunctionPlan
variable {p : FunctionPlan} {m : TypeModel} {f : Function} {v : View} {r : Run}

theorem Apart.flags_site (h : p.Apart f) {s : Site} (hs : s ∈ f.allSites)
    (hflags : ∀ n, v.flags.get? n = r.flags.get? n) (n : String) :
    ((p.siteSteps s).foldl View.afterStep v).flags.get? n = (r.passSite p s).flags.get? n := by
  rw [View.flags_siteSteps, Run.flags_passSite, flagsAfter, setAfter_eq]
  simp only [FlagValues.get?_setAll, hflags, mem_clearedAt_iff]
  by_cases hafter : n ∈ p.clearedAfter s.id
  · have hset : n ∉ p.setAt s.id := h s hs n (mem_clearedAt_iff.2 (.inr hafter))
    simp [hafter, hset]
  · simp [hafter]

theorem Apart.flags_sites (h : p.Apart f) {sites : List Site} (hsites : ∀ s ∈ sites, s ∈ f.allSites)
    (hflags : ∀ n, v.flags.get? n = r.flags.get? n) (n : String) :
    ((sites.flatMap p.siteSteps).foldl View.afterStep v).flags.get? n =
      (sites.foldl (Run.passSite p) r).flags.get? n := by
  induction sites generalizing v r with
  | nil => exact hflags n
  | cons s sites ih =>
    rw [List.flatMap_cons, List.foldl_append, List.foldl_cons]
    exact ih (fun t ht => hsites t (List.mem_cons_of_mem _ ht))
      (h.flags_site (hsites s List.mem_cons_self) hflags)

end FunctionPlan

structure Carries (whole : Code) (l : Layout) (base : ValueNo) (p : FunctionPlan) (m : TypeModel)
    (f : Function) : Prop where
  cells : l.Apart
  sites : p.Apart f
  block : ∀ {id : BlockId}, f.hasBlock id = true →
    ∃ x d, x.id = id ∧ p.Describes m f x ∧ x.Fits l ∧ Lowered whole l base x d

/-- A view of the machine agrees with a run. Choices matter for blocks with several edges only. -/
structure Follows (l : Layout) (p : FunctionPlan) (m : TypeModel) (f : Function) (choices : Choices)
    (v : View) (r : Run) : Prop where
  flags : ∀ n, v.flags.get? n = r.flags.get? n
  choices : ∀ id, 2 ≤ (f.edgesAt id).length → v.choices.choiceAt id = choices.choiceAt id
  blocks : v.blocks = r.blocks.toList.map l.block
  drops : v.drops.map some = r.destroyed.toList.map (p.destructorCall m l.slot)

namespace Follows
variable {l : Layout} {p : FunctionPlan} {m : TypeModel} {f : Function} {choices : Choices} {v : View}
  {r : Run}

theorem passBlock (h : Follows l p m f choices v r) (hsites : p.Apart f) (id : BlockId) :
    Follows l p m f choices
      (((f.sitesAt id).flatMap p.siteSteps).foldl View.afterStep (v.afterEnter (l.block id)))
      (f.passBlock p id r) := by
  rw [View.afterSteps_eq]
  refine ⟨fun n => ?_, h.choices, ?_, ?_⟩
  · have hflags : ∀ n, (v.afterEnter (l.block id)).flags.get? n =
        ({ r with blocks := r.blocks.push id } : Run).flags.get? n := h.flags
    exact hsites.flags_sites (fun s hs => Function.mem_allSites.2 ⟨id, hs⟩) hflags n
  · rw [Function.blocks_passBlock, Array.toList_push, List.map_append, ← h.blocks]
    rfl
  · rw [Function.destroyed_passBlock]
    exact h.drops

theorem endScope (h : Follows l p m f choices v r) {names : List String} {ds : List Drop}
    (hpays : p.Pays m names ds) : Follows l p m f choices (v.afterDrops l ds) (r.endScope p names) := by
  refine ⟨fun n => ?_, h.choices, ?_, ?_⟩
  · rw [Run.flags_endScope]
    exact h.flags n
  · rw [Run.blocks_endScope]
    exact h.blocks
  · rw [Run.destroyed_endScope, List.map_append, ← h.drops, ← hpays.fired h.flags]
    unfold View.afterDrops
    rw [List.map_append, List.map_map]
    rfl

theorem visit (h : Follows l p m f choices v r) {id : BlockId} {edges : ℕ}
    (hedges : edges = (f.edgesAt id).length) :
    Follows l p m f (choices.visit id) (v.afterChoice id edges) r := by
  have hchoices : ∀ x, 2 ≤ (f.edgesAt x).length →
      (v.afterChoice id edges).choices.choiceAt x = (choices.visit id).choiceAt x := by
    intro x hx
    unfold View.afterChoice
    by_cases hid : x = id
    · subst hid
      rw [if_pos (hedges ▸ hx), Choices.choiceAt_visit, Choices.choiceAt_visit, h.choices x hx]
    · rw [Choices.choiceAt_visit, if_neg hid, ← h.choices x hx]
      split
      · exact (Choices.choiceAt_visit _ _ _).trans (if_neg hid)
      · rfl
  unfold View.afterChoice at hchoices ⊢
  split at hchoices
  next hmany =>
    rw [if_pos hmany]
    exact ⟨h.flags, hchoices, h.blocks, h.drops⟩
  next hfew =>
    rw [if_neg hfew]
    exact ⟨h.flags, hchoices, h.blocks, h.drops⟩

end Follows

/-- From the first instruction of a block on the code does what the run does. -/
theorem Carries.simulates {whole : Code} {l : Layout} {base : ValueNo} {p : FunctionPlan}
    {m : TypeModel} {f : Function} (hc : Carries whole l base p m f) {limit : Int} {fuel : ℕ}
    {id : BlockId} {choices : Choices} {r r' : Run}
    (h : f.runFrom p f.lifetimeOrder limit fuel id choices r = .ok r') (hchoices : choices.NonNegative)
    {s : Machine} {v : View} (hrest : s.rest = whole.instrsAt (l.block id))
    (hshows : Shows l base s (v.afterEnter (l.block id))) (hfollows : Follows l p m f choices v r) :
    ∃ s' v' choices', Reaches whole s s' ∧ s'.atReturn = true ∧ Shows l base s' v' ∧
      Follows l p m f choices' v' r' := by
  -- one block of the run after the other; `Follows` is what each block keeps
  induction fuel generalizing id choices r s v with
  | zero => cases h
  | succ fuel ih =>
    obtain ⟨hblock, hcase⟩ := Function.runFrom_cases h
    obtain ⟨x, d, rfl, hdescribes, hfits, hlowered⟩ := hc.block hblock
    have hpassed := hfollows.passBlock hc.sites x.id
    rw [← hdescribes.steps] at hpassed
    cases hending : x.ending with
    | ret ds =>
      obtain ⟨hexit, hpays⟩ := hdescribes.ret hending
      rcases hcase with ⟨-, names, hnames, rfl⟩ | ⟨e, names, he, -, -⟩
      · obtain ⟨s', hreach, hreturn, hshows'⟩ :=
          returns_of_block hlowered hc.cells hfits hending hrest hshows
        rw [← Function.eq_namesWhere hnames] at hpays
        exact ⟨s', _, choices, hreach, hreturn, hshows', hpassed.endScope hpays⟩
      -- a block that returns has no edge to choose
      · have hmem := Function.mem_of_chooseEdge he
        rw [hexit] at hmem
        cases hmem
    | go succs =>
      obtain ⟨hedges, hcovers⟩ := hdescribes.go hending
      rcases hcase with ⟨hexit, -⟩ | ⟨e, names, he, hnames, hrun⟩
      · exact absurd hexit hedges
      · obtain ⟨i, hi, hedge⟩ := Function.position_of_chooseEdge (hchoices x.id) he
        have hlength : succs.length = (f.edgesAt x.id).length := hcovers.length_eq.symm
        obtain ⟨y, hy, hdst, hpays⟩ := exists_getElem?_of_forall₂ hcovers hedge
        -- the machine is not asked where there is one edge only, so the choices agree elsewhere
        have hchoice : 2 ≤ succs.length →
            ((v.afterEnter (l.block x.id)).choices.choiceAt x.id).edge? = some (i : Int) := by
          intro hmany
          rw [hlength] at hmany
          have hsame := hfollows.choices x.id hmany
          change (v.choices.choiceAt x.id).edge? = some (i : Int)
          rw [hsame, hi]
        obtain ⟨s', hreach, hrest', hshows'⟩ :=
          goes_of_block hlowered hc.cells hfits hending hy hchoice hrest hshows
        rw [hdst] at hrest' hshows'
        rw [← Function.eq_namesWhere hnames] at hpays
        obtain ⟨s'', v', choices', hreach', hreturn, hshows'', hfollows'⟩ := ih hrun (hchoices.visit x.id)
          hrest' hshows' ((hpassed.visit hlength).endScope hpays)
        exact ⟨s'', v', choices', hreach.trans hreach', hreturn, hshows'', hfollows'⟩

namespace Function
variable {f : Function} {m : TypeModel} {t : TypeTable} {settings : Settings} {plan : FunctionPlan}

theorem named_of_planFunction (ht : t.FieldsRegistered)
    (h : planFunction (TypeModel.build t) settings f = .ok plan) : plan.Named (TypeModel.build t) := by
  intro place d hd _
  apply TypeModel.exists_typeName
  cases hx : plan.excluded with
  | false =>
    have hp := planned_of_planFunction h hx
    obtain ⟨_, b, plans, _, hb, hplans, hmem⟩ := hp.bindingPlans hd
    obtain ⟨p, hp', htype⟩ := type_of_bindingPlans hplans hmem
    dsimp only at hp' htype
    rw [htype]
    exact TypeModel.contains_of_resolvePath ht (hp.typed.binding hb) hp' _ p.leaf_mem_chain
  | true =>
    exact (of_fallbackDestruction (fallbackDestruction_of_planFunction h hx) hd).1

theorem apart_of_planFunction (h : planFunction m settings f = .ok plan) : plan.Apart f := by
  intro s hs n hcleared hset
  obtain ⟨flag, hflag, _, hclears⟩ := FunctionPlan.exists_flag_of_clearedAt hcleared
  obtain ⟨flag', hflag', _, hsets⟩ := FunctionPlan.exists_flag_of_setAt hset
  obtain ⟨place, d, hd, hguard⟩ := FunctionPlan.exists_plan_of_mem_flags hflag
  cases hx : plan.excluded with
  | false =>
    have hp := planned_of_planFunction h hx
    obtain ⟨place', d', hd', hguard'⟩ := FunctionPlan.exists_plan_of_mem_flags hflag'
    obtain ⟨b, hg⟩ := hp.guards hd hguard
    obtain ⟨b', hg'⟩ := hp.guards hd' hguard'
    obtain ⟨_, hmove, _⟩ := (hg.clears hs).1 hclears
    have hkind := hg'.kind_of_setsAt hp.wf hs hsets
    rw [hmove] at hkind
    -- a moving site is neither a declaration nor a write
    rcases hkind with hdecl | hwrite
    · cases hdecl
    · cases hwrite
  | true =>
    -- a plan that was given up has no flags
    have hnone := (of_fallbackDestruction (fallbackDestruction_of_planFunction h hx) hd).2
    rw [hguard] at hnone
    cases hnone

def slotOf (f : Function) (name : String) : ValueNo := (f.lifetimeOrder.idxOf? name).getD 0

theorem slot_eq_slotOf (hnodup : f.lifetimeOrder.Nodup) {sk : Skeleton} (hslots : sk.slots = f.lifetimeOrder)
    (globals : OrderedMap String Global) : (sk.layout globals).slot = f.slotOf := by
  funext n
  have hidx : lastWrite n (f.lifetimeOrder.zipIdx 0) = f.lifetimeOrder.idxOf? n := by
    refine Option.ext fun i => ?_
    rw [lastWrite_zipIdx hnodup, Nat.sub_zero, List.idxOf?_eq_some_iff]
    constructor
    · rintro ⟨-, hi⟩
      obtain ⟨hlt, hget⟩ := List.getElem?_eq_some_iff.1 hi
      refine ⟨hlt, hget, fun j hj hsame => ?_⟩
      have hij : f.lifetimeOrder[j]? = f.lifetimeOrder[i]? := by
        rw [List.getElem?_eq_getElem (Nat.lt_trans hj hlt), List.getElem?_eq_getElem hlt]
        exact congrArg some (hsame.trans hget.symm)
      exact absurd ((List.getElem?_inj (Nat.lt_trans hj hlt) hnodup).1 hij) (Nat.ne_of_lt hj)
    · rintro ⟨hlt, hget, -⟩
      exact ⟨Nat.zero_le _, List.getElem?_eq_some_iff.2 ⟨hlt, hget⟩⟩
  unfold Layout.slot slotOf
  rw [Skeleton.layout_slots, hslots, hidx]

variable {sk : Skeleton} {globals : OrderedMap String Global}

theorem carries_of_sketch (wf : f.WellFormed) (hsites : plan.Apart f) (hsketch : plan.Sketches m f sk) :
    Carries (Draft.ofSkeleton globals sk).code (sk.layout globals) (sk.beforeBlocks globals).values
      plan m f := by
  have hnodup : sk.ids.Nodup := hsketch.ids ▸ nodup_orderedBlocks
  refine ⟨Skeleton.layout_apart globals sk, hsites, fun {id} hid => ?_⟩
  have hmem : id ∈ sk.ids := by
    rw [hsketch.ids]
    exact mem_orderedBlocks.2 hid
  obtain ⟨x, hx, rfl⟩ := List.mem_map.1 hmem
  obtain ⟨d, hd⟩ := Skeleton.lowered_of_fits (hsketch.fits wf globals) hnodup hx
  exact ⟨x, d, rfl, hsketch.blocks x hx, hsketch.fits wf globals x hx, hd⟩

/-- The code of a skeleton runs to a return, and does what the run does on the way. -/
theorem runs_of_sketch (wf : f.WellFormed) (hsites : plan.Apart f) (hsketch : plan.Sketches m f sk)
    (globals : OrderedMap String Global) {choices : Choices} (hchoices : choices.NonNegative) {limit : Int}
    {r : Run} (hrun : f.run plan choices limit = .ok r) :
    ∃ s v choices', Reaches (Draft.ofSkeleton globals sk).code
        (start (Draft.ofSkeleton globals sk).code choices) s ∧ s.atReturn = true ∧
      Shows (sk.layout globals) (sk.beforeBlocks globals).values s v ∧
      Follows (sk.layout globals) plan m f choices' v r := by
  have hnodup : sk.ids.Nodup := hsketch.ids ▸ nodup_orderedBlocks
  have hentry : sk.entry ∈ sk.ids := by
    rw [hsketch.entry, hsketch.ids]
    exact mem_orderedBlocks.2 wf.entry
  have hflags : sk.ShowsFlags plan.initialFlags := by
    intro n
    rw [FunctionPlan.lastWrite_initialFlags, hsketch.flags, List.map_map]
    rfl
  obtain ⟨s, hreach, hrest, hshows⟩ := Skeleton.reaches_first
    (Skeleton.beforeBlocks_isPrefix (hsketch.fits wf globals) hnodup) hentry hflags choices
  rw [hsketch.entry] at hrest hshows
  have hfollows : Follows (sk.layout globals) plan m f choices
      { flags := plan.initialFlags, choices := choices } { flags := plan.initialFlags } :=
    ⟨fun _ => rfl, fun _ _ => rfl, rfl, rfl⟩
  obtain ⟨s', v, choices', hreach', hreturn, hshows', hfollows'⟩ :=
    (carries_of_sketch wf hsites hsketch).simulates
      (v := { flags := plan.initialFlags, choices := choices }) hrun hchoices hrest hshows hfollows
  exact ⟨s', v, choices', hreach.trans hreach', hreturn, hshows', hfollows'⟩

theorem danglingEdge?_eq_none (wf : f.WellFormed) : f.danglingEdge? = none := by
  rw [danglingEdge?, List.find?_eq_none]
  intro e he
  obtain ⟨blk, hblk, hedge⟩ := List.mem_flatMap.1 he
  obtain ⟨⟨id, blk⟩, hmem, rfl⟩ := List.mem_map.1 hblk
  have hb : f.block? id = some blk := (f.blocks.get?_eq_some_iff id blk).2 hmem
  rw [← edgesAt_eq hb] at hedge
  rw [wf.target hedge]
  decide

theorem exists_addFunction (wf : f.WellFormed) (hsk : f.skeleton m plan = .ok sk) {mod : Module}
    {symbol : String} (hfree : mod.isTaken (if symbol = "" then f.name else symbol) = false) :
    ∃ mod', mod.addFunction m f plan symbol = .ok mod' ∧
      mod'.globals.get? (if symbol = "" then f.name else symbol) = some (.defined (Draft.ofSkeleton
        (mod.globals.put (if symbol = "" then f.name else symbol) (.defined [])) sk).trail.reverse) := by
  unfold Module.addFunction
  simp only [danglingEdge?_eq_none wf, hfree, hsk, Bool.false_eq_true, ↓reduceIte]
  refine ⟨_, rfl, ?_⟩
  rw [OrderedMap.get?_put, if_pos rfl]

/-- The code that is emitted for an accepted function and its plan runs to a return whenever the plan
does. It enters the same blocks, and calls just the destructors of the places that the run destroys, in
the same order and each on the slot of its binding. -/
theorem lowered_simulates (ht : t.Built) (hf : Produced f ∨ Construction.Makes f)
    {model : Option TypeModel} {ds : List Diagnostic}
    (hvalid : f.validate model = .ok ds) (herrors : hasErrors ds = false)
    (hplan : planFunction (TypeModel.build t) settings f = .ok plan) {choices : Choices}
    (hchoices : choices.NonNegative) {limit : Int} {r : Run} (hrun : f.run plan choices limit = .ok r)
    {mod : Module} {symbol : String}
    (hfree : mod.isTaken (if symbol = "" then f.name else symbol) = false) :
    ∃ mod' events, mod.addFunction (TypeModel.build t) f plan symbol = .ok mod' ∧
      mod'.globals.get? (if symbol = "" then f.name else symbol) = some (.defined events) ∧
      openingEvents f.orderedBlocks f.lifetimeOrder <+: events ∧
      ∃ n s, (∀ fuel ≥ n, execute (numberedInstrs events 0) fuel
          (start (numberedInstrs events 0) choices) = some s) ∧
        s.blocks.filterMap (blockAt? f.orderedBlocks) = r.blocks.toList ∧
        (s.calls.filter Call.onSlot).map some =
          r.destroyed.toList.map (plan.destructorCall (TypeModel.build t) f.slotOf) := by
  have wf := wellFormed_of_validate hvalid herrors
  have hone : f.DeclaredOnce := hf.elim Produced.declaredOnce Construction.Makes.declaredOnce
  obtain ⟨sk, hsk, hsketch⟩ := FunctionPlan.exists_sketch wf hone
    (fun he => src_of_validate hvalid herrors he) (named_of_planFunction ht.fieldsRegistered hplan)
  obtain ⟨mod', hadd, hget⟩ := exists_addFunction wf hsk hfree
  have hnodup : sk.ids.Nodup := hsketch.ids ▸ nodup_orderedBlocks
  refine ⟨mod', _, hadd, hget, ?_, ?_⟩
  · rw [← hsketch.ids, ← hsketch.slots]
    exact Skeleton.opening_isPrefix (hsketch.fits wf _) hnodup
  obtain ⟨s, v, choices', hreach, hreturn, hshows, hfollows⟩ :=
    runs_of_sketch wf (apart_of_planFunction hplan) hsketch
      (mod.globals.put (if symbol = "" then f.name else symbol) (.defined [])) hchoices hrun
  obtain ⟨n, hexecute⟩ := execute_of_reaches hreach hreturn
  refine ⟨n, s, hexecute, ?_, ?_⟩
  · rw [← hsketch.ids]
    exact Skeleton.filterMap_blockAt? hnodup (hshows.blocks.trans hfollows.blocks)
  · rw [hshows.drops, hfollows.drops, slot_eq_slotOf (nodup_lifetimeOrder wf hone) hsketch.slots]

/-- A struct whose field is moved in the first arm of a branch. -/
def partlyMoved : Function :=
  (Script.run .standard "f" .empty [
    .declare "p" (.named "Pair"),
    .branchThen [
      .moveOut (.place "p.name") (some (.argument "take" 0 .value false false)) false false]]).function

def partlyMovedPlan : FunctionPlan :=
  (planFunction (TypeModel.build .standard) {} partlyMoved).toOption.getD default

theorem planFunction_partlyMoved :
    planFunction (TypeModel.build .standard) {} partlyMoved = .ok partlyMovedPlan :=
  eq_ok_of_isOk (by decide +kernel)

def otherArm : Choices := .ofList [(0, .always 1)]

theorem otherArm_nonNegative : otherArm.NonNegative := by
  intro id e he
  have hget : otherArm.get? id = lastWrite id [(0, .always 1)] := OrderedMap.get?_ofList _ _
  rw [Choices.choiceAt, hget, lastWrite_cons] at he
  split at he <;> simp [lastWrite, Choice.edges] at he <;> omega

/-- In the other arm the field is still there. The code destroys it first, and then what is left of the
struct. -/
theorem lowered_partlyMoved : ∃ mod' events n s,
    ({ name := "m" } : Module).addFunction (TypeModel.build .standard) partlyMoved partlyMovedPlan "" =
      .ok mod' ∧
    mod'.globals.get? "f" = some (.defined events) ∧
    openingEvents [0, 2, 1, 3] ["p"] <+: events ∧
    (∀ fuel ≥ n, execute (numberedInstrs events 0) fuel
      (start (numberedInstrs events 0) otherArm) = some s) ∧
    s.blocks.filterMap (blockAt? [0, 2, 1, 3]) = [0, 2, 3] ∧
    (s.calls.filter Call.onSlot).map some =
      [some { callee := "Str.drop", args := [.slot 0] },
        some { callee := "Pair.drop_rest", args := [.slot 0] }] := by
  have hrun : ((partlyMoved.run partlyMovedPlan otherArm 10).toOption.map fun r => (r.blocks.toList,
      r.destroyed.toList.map
        (partlyMovedPlan.destructorCall (TypeModel.build .standard) partlyMoved.slotOf))) =
      some ([0, 2, 3], [some { callee := "Str.drop", args := [.slot 0] },
        some { callee := "Pair.drop_rest", args := [.slot 0] }]) := by decide +kernel
  have horder : partlyMoved.orderedBlocks = [0, 2, 1, 3] := by decide +kernel
  have hnames : partlyMoved.lifetimeOrder = ["p"] := by decide +kernel
  obtain ⟨r, hr, heq⟩ := Option.map_eq_some_iff.1 hrun
  rw [Prod.mk.injEq] at heq
  have hok : partlyMoved.run partlyMovedPlan otherArm 10 = .ok r := by
    cases hrun' : partlyMoved.run partlyMovedPlan otherArm 10 with
    | error e =>
      rw [hrun'] at hr
      cases hr
    | ok r' =>
      rw [hrun', Except.toOption, Option.some.injEq] at hr
      rw [hr]
  have hproduced : Produced partlyMoved := .script ..
  have hvalid : partlyMoved.validate (some (TypeModel.build .standard)) = .ok [] := by decide +kernel
  have hfree : ({ name := "m" } : Module).isTaken (if "" = "" then partlyMoved.name else "") = false := by
    decide +kernel
  obtain ⟨mod', events, hadd, hget, hopen, n, s, hexecute, hblocks, hcalls⟩ :=
    lowered_simulates TypeTable.standard_built (.inl hproduced) hvalid rfl planFunction_partlyMoved
      otherArm_nonNegative hok hfree
  rw [horder, hnames] at hopen
  rw [horder, heq.1] at hblocks
  rw [heq.2] at hcalls
  exact ⟨mod', events, n, s, hadd, hget, hopen, hexecute, hblocks, hcalls⟩

end Function
end MovePlan
