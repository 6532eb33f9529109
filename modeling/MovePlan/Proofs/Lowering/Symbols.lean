import MovePlan.Proofs.Lowering.Simulation

set_option autoImplicit false

namespace MovePlan

def Step.callee? : Step → Option String
  | .store .. => none
  | .mark marker _ => some marker

/-- The code asks for a choice where there are several edges. -/
def Ending.callees : Ending → List String
  | .ret drops => drops.map Drop.callee
  | .go succs => succs.flatMap (fun x => x.drops.map Drop.callee) ++
      if 2 ≤ succs.length then ["movec.choose"] else []

def SkeletonBlock.callees (x : SkeletonBlock) : List String :=
  x.steps.flatMap (fun y => y.callee?.toList) ++ x.ending.callees

def Skeleton.callees (sk : Skeleton) : List String := sk.blocks.flatMap SkeletonBlock.callees

def Global.isDefined : Global → Bool
  | declared _ => false
  | defined _ => true

/-- The symbols that have a body, in the order in which they came. -/
def definedSymbols (globals : OrderedMap String Global) : List String :=
  (globals.entries.filter fun e => e.2.isDefined).map Prod.fst

namespace OrderedMap
variable {κ α : Type} [DecidableEq κ]

theorem filter_putIn {test : α → Bool} {k : κ} {v w : α} {es : List (κ × α)} (hk : findIn k es = some w)
    (hv : test v = test w) : ((putIn k v es).filter fun e => test e.2).map Prod.fst =
      (es.filter fun e => test e.2).map Prod.fst := by
  induction es with
  | nil => cases hk
  | cons e es ih =>
    rw [findIn] at hk
    rw [putIn]
    split at hk
    next heq =>
      rw [Option.some.injEq] at hk
      subst hk heq
      rw [if_pos rfl, List.filter_cons, List.filter_cons, hv]
      cases test e.2 <;> rfl
    next hne =>
      rw [if_neg hne, List.filter_cons, List.filter_cons]
      cases test e.2
      · exact ih hk
      · exact congrArg (e.1 :: ·) (ih hk)

end OrderedMap

structure Declares (globals globals' : OrderedMap String Global) (names : List String) : Prop where
  mem_keys : ∀ x, x ∈ globals'.keys ↔ x ∈ globals.keys ∨ x ∈ names
  defined : definedSymbols globals' = definedSymbols globals

namespace Declares
variable {globals globals' globals'' : OrderedMap String Global} {names names' : List String}

theorem refl (globals : OrderedMap String Global) : Declares globals globals [] :=
  ⟨fun x => by simp, rfl⟩

theorem trans (h : Declares globals globals' names) (h' : Declares globals' globals'' names') :
    Declares globals globals'' (names ++ names') where
  mem_keys x := by rw [h'.mem_keys, h.mem_keys, List.mem_append, or_assoc]
  defined := h'.defined.trans h.defined

theorem congr (h : Declares globals globals' names) (heq : ∀ x, x ∈ names ↔ x ∈ names') :
    Declares globals globals' names' :=
  ⟨fun x => by rw [h.mem_keys, heq], h.defined⟩

theorem of_mem {callee : String} (h : callee ∈ globals.keys) : Declares globals globals [callee] where
  mem_keys x := by
    rw [List.mem_singleton, iff_self_or]
    rintro rfl
    exact h
  defined := rfl

theorem put {callee : String} (h : callee ∉ globals.keys) (s : Signature) :
    Declares globals (globals.put callee (.declared s)) [callee] where
  mem_keys x := by rw [OrderedMap.mem_keys_put, List.mem_singleton, or_comm]
  defined := by
    have hentries : (globals.put callee (.declared s)).entries = globals.entries ++ [(callee, .declared s)] :=
      OrderedMap.putIn_of_not_mem h
    rw [definedSymbols, hentries, List.filter_append]
    simp [definedSymbols, Global.isDefined]

end Declares

namespace Draft
variable {d : Draft} {l : Layout}

theorem declares_call (d : Draft) (callee : String) (s : Signature) (args : List Operand) :
    Declares d.globals (d.call callee s args).1.globals [callee] := by
  rw [call]
  split
  next g hg =>
    exact .of_mem ((OrderedMap.contains_iff _ _).1 (Option.isSome_iff_exists.2 ⟨g, hg⟩))
  next hnone =>
    refine .put (fun hmem => ?_) s
    rw [← OrderedMap.contains_iff, OrderedMap.contains, hnone] at hmem
    cases hmem

theorem declares_foldl {α : Type} {g : Draft → α → Draft} {names : α → List String}
    (hg : ∀ d x, Declares d.globals (g d x).globals (names x)) (d : Draft) (xs : List α) :
    Declares d.globals (xs.foldl g d).globals (xs.flatMap names) := by
  induction xs generalizing d with
  | nil => exact .refl _
  | cons x xs ih =>
    rw [List.flatMap_cons]
    exact (hg d x).trans (ih _)

theorem declares_step (d : Draft) (x : Step) : Declares d.globals (step l d x).globals x.callee?.toList := by
  cases x with
  | store flag value => exact .refl _
  | mark marker site => exact declares_call d marker _ _

theorem declares_declareDrop (d : Draft) (x : Drop) :
    Declares d.globals (d.declareDrop x).globals [x.callee] := by
  rw [declareDrop]
  split
  next h => exact .of_mem ((OrderedMap.contains_iff _ _).1 h)
  next h => exact .put (fun hmem => h ((OrderedMap.contains_iff _ _).2 hmem)) _

theorem declares_drop (d : Draft) (x : Drop) : Declares d.globals (d.drop l x).globals [x.callee] := by
  cases hguard : x.guard with
  | none =>
    rw [drop_of_no_guard hguard]
    exact declares_call d x.callee _ _
  | some flag =>
    rw [drop_of_guard hguard]
    have hbody : Declares d.globals (guardedBody l d x flag).globals [x.callee] := declares_declareDrop d x
    have hcall := declares_call (guardedBody l d x flag) x.callee { result := .void, args := [.i8Ptr] }
      [.slot (l.slot x.binding)]
    exact (hbody.trans hcall).congr fun y => by simp

theorem declares_drops (d : Draft) (xs : List Drop) :
    Declares d.globals (xs.foldl (drop l) d).globals (xs.map Drop.callee) := by
  rw [List.map_eq_flatMap]
  exact declares_foldl declares_drop d xs

theorem declares_successor (d : Draft) (x : Successor) :
    Declares d.globals (d.successor l x).1.globals (x.drops.map Drop.callee) := by
  cases x with
  | direct dst => exact .refl _
  | through src dst drops =>
    rw [successor_through]
    exact declares_drops (d.inNewBlock _) drops

theorem declares_successors (d : Draft) (xs : List Successor) :
    Declares d.globals (successors l xs d).1.globals (xs.flatMap fun x => x.drops.map Drop.callee) := by
  induction xs generalizing d with
  | nil => exact .refl _
  | cons x xs ih =>
    rw [List.flatMap_cons]
    exact (declares_successor d x).trans (ih _)

theorem declares_steps (d : Draft) (x : SkeletonBlock) :
    Declares d.globals (afterSteps l x d).globals (x.steps.flatMap fun y => y.callee?.toList) :=
  declares_foldl declares_step (d.goTo (l.block x.id)) x.steps

theorem declares_block (d : Draft) (x : SkeletonBlock) :
    Declares d.globals (d.block l x).globals x.callees := by
  have hsteps : Declares d.globals (afterSteps l x d).globals _ := declares_steps d x
  refine hsteps.trans ?_
  cases hending : x.ending with
  | ret drops =>
    rw [block_of_ret hending]
    exact declares_drops (afterSteps l x d) drops
  | go succs =>
    have hedges : Declares (afterSteps l x d).globals (afterEdges l x succs d).globals _ :=
      declares_successors (afterSteps l x d) succs
    have hlength := length_successors (l := l) succs (afterSteps l x d)
    -- the edges have been counted by their blocks
    refine hedges.trans ?_
    rcases hblocks : (successors l succs (afterSteps l x d)).2 with _ | ⟨t, _ | ⟨t', ts⟩⟩
    · rw [block_of_none hending hblocks, if_neg (by simp [← hlength, hblocks])]
      exact .refl _
    · rw [block_of_one hending hblocks, if_neg (by simp [← hlength, hblocks])]
      exact .refl _
    · obtain ⟨type, heq⟩ := block_of_more hending hblocks
      rw [heq, if_pos (by simp [← hlength, hblocks])]
      exact declares_call (afterEdges l x succs d) "movec.choose" _ _

theorem globals_openBlocks (ids : List BlockId) (d : Draft) : (openBlocks ids d).1.globals = d.globals := by
  induction ids generalizing d with
  | nil => rfl
  | cons id ids ih => exact ih _

theorem globals_openSlots (ns : List String) (d : Draft) : (openSlots ns d).1.globals = d.globals := by
  induction ns generalizing d with
  | nil => rfl
  | cons n ns ih => exact ih _

theorem globals_openFlags (xs : List FlagSlot) (d : Draft) : (openFlags xs d).1.globals = d.globals := by
  induction xs generalizing d with
  | nil => rfl
  | cons x xs ih =>
    rw [openFlags_cons]
    refine (ih _).trans ?_
    rw [openFlag]
    split <;> rfl

theorem declares_ofSkeleton (globals : OrderedMap String Global) (sk : Skeleton) :
    Declares globals (ofSkeleton globals sk).globals sk.callees := by
  have hbefore : (sk.beforeBlocks globals).globals = globals :=
    calc (sk.beforeBlocks globals).globals = (sk.withSlots globals).globals := globals_openFlags _ _
      _ = (sk.withBlocks globals).globals := globals_openSlots _ _
      _ = globals := globals_openBlocks _ _
  have hblocks := declares_foldl (declares_block (l := sk.layout globals)) (sk.beforeBlocks globals) sk.blocks
  rw [hbefore] at hblocks
  exact hblocks

end Draft

theorem mem_definedSymbols {globals : OrderedMap String Global} {x : String} :
    x ∈ definedSymbols globals ↔ ∃ g, globals.get? x = some g ∧ g.isDefined = true := by
  rw [definedSymbols, List.mem_map]
  constructor
  · rintro ⟨⟨x, g⟩, he, rfl⟩
    obtain ⟨hmem, hg⟩ := List.mem_filter.1 he
    exact ⟨g, (OrderedMap.get?_eq_some_iff _ _ _).2 hmem, hg⟩
  · rintro ⟨g, hget, hg⟩
    exact ⟨(x, g), List.mem_filter.2 ⟨(OrderedMap.get?_eq_some_iff _ _ _).1 hget, hg⟩, rfl⟩

theorem definedSymbols_put_new {globals : OrderedMap String Global} {x : String} (h : x ∉ globals.keys)
    (events : List Event) :
    definedSymbols (globals.put x (.defined events)) = definedSymbols globals ++ [x] := by
  have hentries : (globals.put x (.defined events)).entries = globals.entries ++ [(x, .defined events)] :=
    OrderedMap.putIn_of_not_mem h
  rw [definedSymbols, hentries, List.filter_append, List.map_append]
  rfl

theorem definedSymbols_put {globals : OrderedMap String Global} {x : String} (h : x ∈ definedSymbols globals)
    (events : List Event) :
    definedSymbols (globals.put x (.defined events)) = definedSymbols globals := by
  obtain ⟨g, hget, hg⟩ := mem_definedSymbols.1 h
  exact OrderedMap.filter_putIn hget hg.symm

def Module.defined (mod : Module) : List String := definedSymbols mod.globals

namespace LoweringUnit

/-- The unit takes its own symbol, and those of the functions that its code calls. -/
def Takes (u : LoweringUnit) (m : TypeModel) (symbol : String) : Prop :=
  symbol = u.symbol ∨ ∃ sk, u.function.skeleton m u.plan = .ok sk ∧ symbol ∈ sk.callees

/-- Nothing but its symbol can keep the unit from being added. -/
structure Ready (u : LoweringUnit) (m : TypeModel) : Prop where
  closed : u.function.danglingEdge? = none
  sketched : ∃ sk, u.function.skeleton m u.plan = .ok sk
  named : u.symbol ≠ ""

variable {u : LoweringUnit} {m : TypeModel} {mod : Module}

theorem Ready.isTaken (h : u.Ready m) : mod.isTaken u.symbol = mod.globals.contains u.symbol := by
  rw [Module.isTaken, decide_eq_false h.named, Bool.false_or]

theorem Ready.addFunction_of_mem (h : u.Ready m) (hmem : u.symbol ∈ mod.globals.keys) :
    mod.addFunction m u.function u.plan u.symbol = .error (.duplicateSymbol u.symbol) := by
  have htaken : mod.isTaken u.symbol = true := h.isTaken.trans ((OrderedMap.contains_iff _ _).2 hmem)
  rw [Module.addFunction, h.closed]
  simp only [if_neg h.named, htaken, ↓reduceIte]

theorem Ready.addFunction_of_not_mem (h : u.Ready m) (hfree : u.symbol ∉ mod.globals.keys) :
    ∃ mod', mod.addFunction m u.function u.plan u.symbol = .ok mod' ∧
      (∀ x, x ∈ mod'.globals.keys ↔ x ∈ mod.globals.keys ∨ u.Takes m x) ∧
      mod'.defined = mod.defined ++ [u.symbol] := by
  obtain ⟨sk, hsk⟩ := h.sketched
  have hnot : mod.isTaken u.symbol = false := by
    rw [h.isTaken, Bool.eq_false_iff]
    exact fun hc => hfree ((OrderedMap.contains_iff _ _).1 hc)
  have htakes : ∀ x, u.Takes m x ↔ x = u.symbol ∨ x ∈ sk.callees := by
    intro x
    rw [Takes, hsk]
    simp
  have hcode := Draft.declares_ofSkeleton (mod.globals.put u.symbol (.defined [])) sk
  have hdefined : definedSymbols (Draft.ofSkeleton (mod.globals.put u.symbol (.defined [])) sk).globals =
      mod.defined ++ [u.symbol] := hcode.defined.trans (definedSymbols_put_new hfree [])
  rw [Module.addFunction, h.closed]
  simp only [if_neg h.named, hnot, hsk, Bool.false_eq_true, ↓reduceIte]
  refine ⟨_, rfl, fun x => ?_, ?_⟩
  · rw [OrderedMap.mem_keys_put, hcode.mem_keys, OrderedMap.mem_keys_put, htakes]
    tauto
  · rw [Module.defined, definedSymbols_put (by rw [hdefined]; simp), hdefined]

end LoweringUnit

def lowerUnits (m : TypeModel) (us : List LoweringUnit) (mod : Module) : Except LowerError Module :=
  us.foldlM (fun mod u => mod.addFunction m u.function u.plan u.symbol) mod

/-- One unit after the other: either each finds its symbol free, and all are defined in order, or one
comes upon a symbol that is in the module or that a unit before it takes. -/
theorem lowerUnits_cases {m : TypeModel} {us : List LoweringUnit} (hready : ∀ u ∈ us, u.Ready m)
    (mod : Module) :
    ((∀ u ∈ us, u.symbol ∉ mod.globals.keys) ∧ us.Pairwise (fun u v => ¬ u.Takes m v.symbol) ∧
      ∃ mod', lowerUnits m us mod = .ok mod' ∧
        mod'.defined = mod.defined ++ us.map LoweringUnit.symbol) ∨
    ∃ v ∈ us, lowerUnits m us mod = .error (.duplicateSymbol v.symbol) ∧
      (v.symbol ∈ mod.globals.keys ∨ ∃ u, [u, v].Sublist us ∧ u.Takes m v.symbol) := by
  induction us generalizing mod with
  | nil => exact .inl ⟨by simp, .nil, mod, rfl, by simp⟩
  | cons u us ih =>
    obtain ⟨hu, hus⟩ := List.forall_mem_cons.1 hready
    by_cases hmem : u.symbol ∈ mod.globals.keys
    · refine .inr ⟨u, List.mem_cons_self, ?_, .inl hmem⟩
      rw [lowerUnits, List.foldlM_cons, hu.addFunction_of_mem hmem]
      rfl
    obtain ⟨mod₁, hadd, hkeys, hdefined⟩ := hu.addFunction_of_not_mem hmem
    have hrest : lowerUnits m (u :: us) mod = lowerUnits m us mod₁ := by
      rw [lowerUnits, List.foldlM_cons, hadd]
      rfl
    rw [hrest]
    rcases ih hus mod₁ with ⟨hfree, hapart, mod', hok, heq⟩ | ⟨v, hv, herr, hclash⟩
    · left
      have hnot : ∀ v ∈ us, v.symbol ∉ mod.globals.keys ∧ ¬ u.Takes m v.symbol := by
        intro v hv
        rw [← not_or, ← hkeys]
        exact hfree v hv
      refine ⟨List.forall_mem_cons.2 ⟨hmem, fun v hv => (hnot v hv).1⟩, ?_, mod', hok, ?_⟩
      · exact List.pairwise_cons.2 ⟨fun v hv => (hnot v hv).2, hapart⟩
      · rw [heq, hdefined, List.append_assoc]
        rfl
    · refine .inr ⟨v, List.mem_cons_of_mem _ hv, herr, ?_⟩
      rcases hclash with hclash | ⟨w, hw, htakes⟩
      · refine ((hkeys v.symbol).1 hclash).imp_right fun htakes => ⟨u, ?_, htakes⟩
        exact (List.singleton_sublist.2 hv).cons_cons u
      · exact .inr ⟨w, hw.cons u, htakes⟩

end MovePlan
