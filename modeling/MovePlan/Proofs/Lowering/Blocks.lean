import MovePlan.Proofs.Lowering.View

set_option autoImplicit false

namespace MovePlan
open Draft Machine

namespace Successor

def dst : Successor → BlockId
  | direct dst => dst
  | through _ dst _ => dst

def drops : Successor → List Drop
  | direct _ => []
  | through _ _ drops => drops

end Successor

section
variable {whole : Code} {l : Layout} {base : ValueNo} {s : Machine} {v : View} {d : Draft}

/-- A machine that enters the block comes to the target of the edge, and makes the drops on the way. -/
def LeadsTo (whole : Code) (l : Layout) (base : ValueNo) (b : BlockNo) (x : Successor) : Prop :=
  ∀ (s : Machine) (v : View), Shows l base s v → ∃ s', Reaches whole (s.enter whole b) s' ∧
    s'.rest = whole.instrsAt (l.block x.dst) ∧
    Shows l base s' ((v.afterDrops l x.drops).afterEnter (l.block x.dst))

theorem leadsTo_successor (hd : d.Sound) (hbase : base ≤ d.values) (hbelow : l.Below d) {x : Successor}
    (hdrops : ∀ y ∈ x.drops, y.Fits l) (hdst : l.lists (l.block x.dst) = true)
    (hcode : (d.successor l x).1.code <+: whole) : LeadsTo whole l base (d.successor l x).2 x := by
  intro s v hshows
  cases x with
  | direct dst =>
    refine ⟨s.enter whole (l.block dst), .refl _, rfl, ?_⟩
    rw [Successor.drops, View.afterDrops_nil]
    exact hshows.enter hdst
  | through src dst drops =>
    rw [successor_through] at hcode ⊢
    have hblock := extends_inNewBlock hd (.plain s!"bb{src}.to.bb{dst}")
    have hend := extends_drops (l := l) hblock.sound drops
    have hput := extends_put hend.sound (.branch (l.block dst))
    have hprefix : d.code <+: whole :=
      ((hblock.code_isPrefix.trans hend.code_isPrefix).trans hput.code_isPrefix).trans hcode
    have hother : l.lists d.blocks = false := hbelow.lists_eq_false (Nat.le_refl _)
    obtain ⟨s', hreach, hrest, hshows'⟩ := advances_drops hblock.sound
      (Nat.le_trans hbase (hblock.values_le hd)) (hbelow.mono hblock) hdrops
      (hput.code_isPrefix.trans hcode) (s.enter whole d.blocks)
      (pending_of_new hd hprefix (Nat.le_refl _)).symm (hshows.enter_other hother)
    have hbranch := hrest.trans (pending_emit hend.sound hcode)
    exact ⟨_, hreach.trans (.single (step_branch hbranch)), rfl, (hshows'.set_rest _).enter hdst⟩

theorem leadsTo_successors (hd : d.Sound) (hbase : base ≤ d.values) (hbelow : l.Below d)
    {xs : List Successor} (hdrops : ∀ x ∈ xs, ∀ y ∈ x.drops, y.Fits l)
    (hdst : ∀ x ∈ xs, l.lists (l.block x.dst) = true)
    (hcode : (successors l xs d).1.code <+: whole) {i : ℕ} {x : Successor} (hi : xs[i]? = some x) :
    ∃ b, (successors l xs d).2[i]? = some b ∧ LeadsTo whole l base b x := by
  induction xs generalizing d i with
  | nil => simp at hi
  | cons y xs ih =>
    have hfirst : d.Extends (d.successor l y).1 := extends_successor hd y
    have hrest := extends_successors (l := l) hfirst.sound xs
    cases i with
    | zero =>
      rw [List.getElem?_cons_zero, Option.some.injEq] at hi
      subst hi
      exact ⟨_, rfl, leadsTo_successor hd hbase hbelow (hdrops y List.mem_cons_self)
        (hdst y List.mem_cons_self) (hrest.code_isPrefix.trans hcode)⟩
    | succ i =>
      rw [List.getElem?_cons_succ] at hi
      exact ih hfirst.sound (Nat.le_trans hbase (hfirst.values_le hd)) (hbelow.mono hfirst)
        (fun x hx => hdrops x (List.mem_cons_of_mem _ hx)) (fun x hx => hdst x (List.mem_cons_of_mem _ hx))
        hcode hi

theorem length_successors (xs : List Successor) (d : Draft) :
    (successors l xs d).2.length = xs.length := by
  induction xs generalizing d with
  | nil => rfl
  | cons x xs ih => exact congrArg Nat.succ (ih _)

theorem pending_successors (hd : d.Sound) {xs : List Successor}
    (hcode : (successors l xs d).1.code <+: whole) {b : BlockNo} (hb : b < d.blocks) :
    pending whole (successors l xs d).1 b = pending whole d b := by
  induction xs generalizing d with
  | nil => rfl
  | cons x xs ih =>
    have hfirst : d.Extends (d.successor l x).1 := extends_successor hd x
    have hprefix := (extends_successors (l := l) hfirst.sound xs).code_isPrefix.trans hcode
    have hrest : pending whole (successors l (x :: xs) d).1 b = pending whole (d.successor l x).1 b :=
      ih hfirst.sound hcode (Nat.lt_of_lt_of_le hb hfirst.blocks)
    rw [hrest]
    cases x with
    | direct dst => rfl
    | through src dst drops =>
      rw [successor_through] at hprefix ⊢
      have hblock := extends_inNewBlock hd (.plain s!"bb{src}.to.bb{dst}")
      have hend := extends_drops (l := l) hblock.sound drops
      have hput := hend.trans (extends_put hend.sound (.branch (l.block dst)))
      exact pending_of_extends hblock.sound hput hprefix (Nat.ne_of_lt hb)
        (Nat.lt_of_lt_of_le hb hblock.blocks)

/-- What the code of a block needs: names that have cells, and edges to blocks of the function. -/
structure SkeletonBlock.Fits (l : Layout) (x : SkeletonBlock) : Prop where
  listed : l.lists (l.block x.id) = true
  steps : ∀ y ∈ x.steps, y.Fits l
  ret : ∀ {drops : List Drop}, x.ending = .ret drops → ∀ y ∈ drops, y.Fits l
  go : ∀ {succs : List Successor}, x.ending = .go succs →
    ∀ y ∈ succs, l.lists (l.block y.dst) = true ∧ ∀ z ∈ y.drops, z.Fits l

/-- The draft may go on with the block, in which nothing stands yet. -/
structure Ready (l : Layout) (base : ValueNo) (x : SkeletonBlock) (d : Draft) : Prop where
  sound : d.Sound
  base_le : base ≤ d.values
  below : l.Below d
  empty : ∀ y ∈ d.code, y.2.1 ≠ l.block x.id

/-- The draft went on with the block, and the whole code came of it. -/
structure Lowered (whole : Code) (l : Layout) (base : ValueNo) (x : SkeletonBlock) (d : Draft) : Prop
    extends Ready l base x d where
  code : (d.block l x).code <+: whole

def afterSteps (l : Layout) (x : SkeletonBlock) (d : Draft) : Draft :=
  x.steps.foldl (Draft.step l) (d.goTo (l.block x.id))

theorem block_of_ret {x : SkeletonBlock} {drops : List Drop} (hx : x.ending = .ret drops) :
    d.block l x = (drops.foldl (Draft.drop l) (afterSteps l x d)).put .ret := by
  unfold Draft.block Draft.ending
  rw [hx]
  rfl

def afterEdges (l : Layout) (x : SkeletonBlock) (succs : List Successor) (d : Draft) : Draft :=
  (successors l succs (afterSteps l x d)).1.goTo (l.block x.id)

theorem block_of_none {x : SkeletonBlock} {succs : List Successor} (hx : x.ending = .go succs)
    (ht : (successors l succs (afterSteps l x d)).2 = []) : d.block l x = afterEdges l x succs d := by
  have heq : d.block l x = (afterSteps l x d).ending l x.id (l.block x.id) x.ending := rfl
  rw [heq, hx]
  unfold Draft.ending
  simp only [ht]
  rfl

theorem block_of_one {x : SkeletonBlock} {succs : List Successor} (hx : x.ending = .go succs) {t : BlockNo}
    (ht : (successors l succs (afterSteps l x d)).2 = [t]) :
    d.block l x = (afterEdges l x succs d).put (.branch t) := by
  have heq : d.block l x = (afterSteps l x d).ending l x.id (l.block x.id) x.ending := rfl
  rw [heq, hx]
  unfold Draft.ending
  simp only [ht]
  rfl

theorem block_of_more {x : SkeletonBlock} {succs : List Successor} (hx : x.ending = .go succs)
    {t t' : BlockNo} {ts : List BlockNo}
    (ht : (successors l succs (afterSteps l x d)).2 = t :: t' :: ts) :
    ∃ type, d.block l x = ((afterEdges l x succs d).call "movec.choose"
      { result := .i32, args := [.i32] } [.number x.id]).1.put
        (.switch (afterEdges l x succs d).values type t (t' :: ts)) := by
  have heq : d.block l x = (afterSteps l x d).ending l x.id (l.block x.id) x.ending := rfl
  rw [heq, hx]
  unfold Draft.ending
  simp only [ht]
  rw [← number_call (afterEdges l x succs d) "movec.choose" { result := .i32, args := [.i32] }
    [.number x.id]]
  exact ⟨_, rfl⟩

namespace Ready
variable {x : SkeletonBlock}

theorem sound_goTo (hl : Ready l base x d) (hfits : x.Fits l) :
    (d.goTo (l.block x.id)).Sound :=
  ⟨hl.sound.values, hl.sound.blocks, hl.below hfits.listed⟩

theorem extends_afterSteps (hl : Ready l base x d) (hfits : x.Fits l) :
    (d.goTo (l.block x.id)).Extends (afterSteps l x d) :=
  extends_steps (hl.sound_goTo hfits) x.steps

theorem base_le_afterSteps (hl : Ready l base x d) (hfits : x.Fits l) :
    base ≤ (afterSteps l x d).values := by
  have hle := (hl.extends_afterSteps hfits).values_le (hl.sound_goTo hfits)
  exact Nat.le_trans hl.base_le hle

theorem below_afterSteps (hl : Ready l base x d) (hfits : x.Fits l) :
    l.Below (afterSteps l x d) := by
  intro b hb
  exact Nat.lt_of_lt_of_le (hl.below hb) (hl.extends_afterSteps hfits).blocks

theorem extends_successors (hl : Ready l base x d) (hfits : x.Fits l) (succs : List Successor) :
    (afterSteps l x d).Extends (successors l succs (afterSteps l x d)).1 :=
  Draft.extends_successors (hl.extends_afterSteps hfits).sound succs

theorem extends_afterEdges (hl : Ready l base x d) (hfits : x.Fits l) (succs : List Successor) :
    (afterSteps l x d).Extends (afterEdges l x succs d) := by
  have hsuccs := hl.extends_successors hfits succs
  have hhere : (afterSteps l x d).here = l.block x.id := here_steps _ _
  have hlt : l.block x.id < (afterSteps l x d).blocks := hl.below_afterSteps hfits hfits.listed
  exact hsuccs.goTo (.inl hhere.symm) (Nat.lt_of_lt_of_le hlt hsuccs.blocks)

theorem extends_of_go (hl : Ready l base x d) (hfits : x.Fits l) {succs : List Successor}
    (hx : x.ending = .go succs) : (afterEdges l x succs d).Extends (d.block l x) := by
  have hsound := (hl.extends_afterEdges hfits succs).sound
  rcases ht : (successors l succs (afterSteps l x d)).2 with _ | ⟨t, _ | ⟨t', ts⟩⟩
  · rw [block_of_none hx ht]
    exact .refl hsound
  · rw [block_of_one hx ht]
    exact extends_put hsound _
  · obtain ⟨type, heq⟩ := block_of_more hx ht
    rw [heq]
    have hcall := extends_call hsound "movec.choose" { result := .i32, args := [.i32] } [.number x.id]
    exact hcall.trans (extends_put hcall.sound _)

theorem extends_block (hl : Ready l base x d) (hfits : x.Fits l) :
    (d.goTo (l.block x.id)).Extends (d.block l x) := by
  have hsteps := hl.extends_afterSteps hfits
  cases hx : x.ending with
  | ret drops =>
    rw [block_of_ret hx]
    have hdrops := hsteps.trans (extends_drops (l := l) hsteps.sound drops)
    exact hdrops.trans (extends_put hdrops.sound .ret)
  | go succs => exact hsteps.trans ((hl.extends_afterEdges hfits succs).trans (hl.extends_of_go hfits hx))

end Ready

section
variable {x : SkeletonBlock}

theorem reaches_afterSteps (hl : Lowered whole l base x d) (hapart : l.Apart) (hfits : x.Fits l)
    (hcode : (afterSteps l x d).code <+: whole) (hrest : s.rest = whole.instrsAt (l.block x.id))
    (hshows : Shows l base s v) :
    ∃ s', Reaches whole s s' ∧ s'.rest = pending whole (afterSteps l x d) (l.block x.id) ∧
      Shows l base s' (x.steps.foldl View.afterStep v) := by
  have hgo := hl.sound_goTo hfits
  have hprefix : (d.goTo (l.block x.id)).code <+: whole :=
    (extends_steps hgo x.steps).code_isPrefix.trans hcode
  have hstart : pending whole (d.goTo (l.block x.id)) (l.block x.id) = whole.instrsAt (l.block x.id) :=
    pending_eq_instrsAt hgo hprefix hl.empty
  obtain ⟨s', hreach, hrest', hshows'⟩ :=
    advances_steps hgo hapart hfits.steps hcode s (hrest.trans hstart.symm) hshows
  rw [here_steps] at hrest'
  exact ⟨s', hreach, hrest', hshows'⟩

theorem returns_of_block (hl : Lowered whole l base x d) (hapart : l.Apart) (hfits : x.Fits l)
    {drops : List Drop} (hx : x.ending = .ret drops) (hrest : s.rest = whole.instrsAt (l.block x.id))
    (hshows : Shows l base s v) :
    ∃ s', Reaches whole s s' ∧ s'.atReturn = true ∧
      Shows l base s' ((x.steps.foldl View.afterStep v).afterDrops l drops) := by
  have hcode := hl.code
  rw [block_of_ret hx] at hcode
  have hsteps := hl.extends_afterSteps hfits
  have hdrops : (afterSteps l x d).Extends (drops.foldl (Draft.drop l) (afterSteps l x d)) :=
    extends_drops hsteps.sound drops
  have hret := extends_put hdrops.sound .ret
  have hin := hret.code_isPrefix.trans hcode
  obtain ⟨s₁, hreach₁, hrest₁, hshows₁⟩ := reaches_afterSteps hl hapart hfits
    (hdrops.code_isPrefix.trans hin) hrest hshows
  have hhere : (afterSteps l x d).here = l.block x.id := here_steps _ _
  rw [← hhere] at hrest₁
  obtain ⟨s₂, hreach₂, hrest₂, hshows₂⟩ := advances_drops hsteps.sound (hl.base_le_afterSteps hfits)
    (hl.below_afterSteps hfits) (hfits.ret hx) hin s₁ hrest₁ hshows₁
  rw [pending_emit hdrops.sound hcode] at hrest₂
  refine ⟨s₂, hreach₁.trans hreach₂, ?_, hshows₂⟩
  unfold atReturn
  rw [hrest₂]

theorem step_of_choose (whole : Code) (hshows : Shows l base s v) {c : ValueNo} (hc : base ≤ c)
    {result : IrType} {id : BlockId} {edge : Int} {rest : List (ValueNo × Instr)}
    (hrest : s.rest = (c, .call "movec.choose" result [.number id]) :: rest)
    (hedge : (s.choices.choiceAt id).edge? = some edge) :
    ∃ s', s.step whole = some s' ∧ s'.rest = rest ∧ s'.registers.get? c = some (.answer edge) ∧
      Shows l base s' { v with choices := v.choices.visit id } := by
  refine ⟨_, step_choose hrest hedge, rfl, get?_set_self _ _ _, ?_⟩
  rw [← hshows.choices]
  have hrecorded := (hshows.set_rest rest).record_number "movec.choose" id
  exact (hrecorded.set_value hc (.answer edge)).visit (s.choices.visit id)

/-- A block with a single edge ends in a branch, and makes no choice. -/
theorem jumps_of_one (hl : Lowered whole l base x d) (hfits : x.Fits l) {succs : List Successor}
    (hx : x.ending = .go succs) {b : BlockNo} (ht : (successors l succs (afterSteps l x d)).2 = [b])
    (hrest : s.rest = pending whole (afterEdges l x succs d) (l.block x.id)) (hshows : Shows l base s v) :
    ∃ s', Reaches whole s (s'.enter whole b) ∧ Shows l base s' (v.afterChoice x.id succs.length) := by
  have hcode := hl.code
  rw [block_of_one hx ht] at hcode
  have hbranch := hrest.trans (pending_emit (hl.extends_afterEdges hfits succs).sound hcode)
  have hlength : (successors l succs (afterSteps l x d)).2.length = succs.length := length_successors _ _
  refine ⟨_, .single (step_branch hbranch), ?_⟩
  rw [View.afterChoice, if_neg (by rw [← hlength, ht]; simp)]
  exact hshows.set_rest _

/-- A block with several edges asks for a choice, and ends in a switch on the answer. -/
theorem jumps_of_more (hl : Lowered whole l base x d) (hfits : x.Fits l) {succs : List Successor}
    (hx : x.ending = .go succs) {t t' : BlockNo} {ts : List BlockNo}
    (ht : (successors l succs (afterSteps l x d)).2 = t :: t' :: ts) {i : ℕ} {b : BlockNo}
    (hb : (t :: t' :: ts)[i]? = some b) (hchoice : (v.choices.choiceAt x.id).edge? = some (i : Int))
    (hrest : s.rest = pending whole (afterEdges l x succs d) (l.block x.id)) (hshows : Shows l base s v) :
    ∃ s', Reaches whole s (s'.enter whole b) ∧ Shows l base s' (v.afterChoice x.id succs.length) := by
  have hedges := hl.extends_afterEdges hfits succs
  have hcode := hl.code
  obtain ⟨type, heq⟩ := block_of_more hx ht
  rw [heq] at hcode
  have hcall := extends_call hedges.sound "movec.choose" { result := .i32, args := [.i32] } [.number x.id]
  have hbase := Nat.le_trans (hl.base_le_afterSteps hfits)
    (hedges.values_le (hl.extends_afterSteps hfits).sound)
  obtain ⟨result, hchoose⟩ :=
    pending_call hedges.sound ((extends_put hcall.sound _).code_isPrefix.trans hcode)
  have hswitch := pending_emit hcall.sound hcode
  rw [here_call] at hswitch
  rw [← hshows.choices] at hchoice
  obtain ⟨s₁, hstep, hrest₁, hanswer, hshows₁⟩ :=
    step_of_choose whole hshows hbase (hrest.trans hchoose) hchoice
  have hlast : s₁.step whole = some (_ : Machine) := step_switch (hrest₁.trans hswitch) hanswer
  rw [switchTarget_eq hb] at hlast
  have hlength : (successors l succs (afterSteps l x d)).2.length = succs.length := length_successors _ _
  refine ⟨_, Reaches.trans (.single hstep) (.single hlast), ?_⟩
  rw [View.afterChoice, if_pos (by rw [← hlength, ht]; simp)]
  exact hshows₁.set_rest _

theorem jumps_of_block (hl : Lowered whole l base x d) (hapart : l.Apart) (hfits : x.Fits l)
    {succs : List Successor} (hx : x.ending = .go succs) {i : ℕ} {b : BlockNo}
    (hb : (successors l succs (afterSteps l x d)).2[i]? = some b)
    (hchoice : 2 ≤ succs.length → (v.choices.choiceAt x.id).edge? = some (i : Int))
    (hrest : s.rest = whole.instrsAt (l.block x.id)) (hshows : Shows l base s v) :
    ∃ s', Reaches whole s (s'.enter whole b) ∧
      Shows l base s' ((x.steps.foldl View.afterStep v).afterChoice x.id succs.length) := by
  have hcode := (hl.extends_of_go hfits hx).code_isPrefix.trans hl.code
  have hsuccs := hl.extends_successors hfits succs
  obtain ⟨s₁, hreach, hrest₁, hshows₁⟩ := reaches_afterSteps hl hapart hfits
    (hsuccs.code_isPrefix.trans hcode) hrest hshows
  -- the instruction at which the steps stop was put only after the blocks of the edges were made
  have hpending : pending whole (afterEdges l x succs d) (l.block x.id) =
      pending whole (afterSteps l x d) (l.block x.id) :=
    pending_successors (hl.extends_afterSteps hfits).sound hcode (hl.below_afterSteps hfits hfits.listed)
  rw [← hpending] at hrest₁
  have hlength : (successors l succs (afterSteps l x d)).2.length = succs.length := length_successors _ _
  rcases ht : (successors l succs (afterSteps l x d)).2 with _ | ⟨t, _ | ⟨t', ts⟩⟩
  · rw [ht] at hb
    simp at hb
  · rw [ht] at hb
    obtain rfl : t = b := by
      cases i with
      | zero => simpa using hb
      | succ i => simp at hb
    obtain ⟨s', hjump, hshows'⟩ := jumps_of_one hl hfits hx ht hrest₁ hshows₁
    exact ⟨s', hreach.trans hjump, hshows'⟩
  · rw [ht] at hb hlength
    have hmany : 2 ≤ succs.length := by
      rw [← hlength, List.length_cons, List.length_cons]
      omega
    have hedge : ((x.steps.foldl View.afterStep v).choices.choiceAt x.id).edge? = some (i : Int) := by
      rw [View.afterSteps_eq]
      exact hchoice hmany
    obtain ⟨s', hjump, hshows'⟩ := jumps_of_more hl hfits hx ht hb hedge hrest₁ hshows₁
    exact ⟨s', hreach.trans hjump, hshows'⟩

theorem goes_of_block (hl : Lowered whole l base x d) (hapart : l.Apart) (hfits : x.Fits l)
    {succs : List Successor} (hx : x.ending = .go succs) {i : ℕ} {y : Successor}
    (hi : succs[i]? = some y)
    (hchoice : 2 ≤ succs.length → (v.choices.choiceAt x.id).edge? = some (i : Int))
    (hrest : s.rest = whole.instrsAt (l.block x.id)) (hshows : Shows l base s v) :
    ∃ s', Reaches whole s s' ∧ s'.rest = whole.instrsAt (l.block y.dst) ∧
      Shows l base s' ((((x.steps.foldl View.afterStep v).afterChoice x.id succs.length).afterDrops l
        y.drops).afterEnter (l.block y.dst)) := by
  have hcode : (successors l succs (afterSteps l x d)).1.code <+: whole :=
    (hl.extends_of_go hfits hx).code_isPrefix.trans hl.code
  obtain ⟨b, hb, hleads⟩ := leadsTo_successors (hl.extends_afterSteps hfits).sound
    (hl.base_le_afterSteps hfits) (hl.below_afterSteps hfits) (fun z hz => (hfits.go hx z hz).2)
    (fun z hz => (hfits.go hx z hz).1) hcode hi
  obtain ⟨s₁, hreach₁, hshows₁⟩ := jumps_of_block hl hapart hfits hx hb hchoice hrest hshows
  obtain ⟨s₂, hreach₂, hrest₂, hshows₂⟩ := hleads s₁ _ hshows₁
  exact ⟨s₂, hreach₁.trans hreach₂, hrest₂, hshows₂⟩

theorem Ready.after_block (hl : Ready l base x d) (hfits : x.Fits l) {y : SkeletonBlock}
    (hy : Ready l base y d) (hfitsy : y.Fits l) (hne : l.block y.id ≠ l.block x.id) :
    Ready l base y (d.block l x) := by
  have hblock := hl.extends_block hfits
  have hvalues : (d.goTo (l.block x.id)).values ≤ (d.block l x).values :=
    hblock.values_le (hl.sound_goTo hfits)
  obtain ⟨new, hnew, hin⟩ := hblock.added
  refine ⟨hblock.sound, Nat.le_trans hl.base_le hvalues, fun hb => ?_, fun z hz => ?_⟩
  · exact Nat.lt_of_lt_of_le (hl.below hb) hblock.blocks
  · rw [hnew] at hz
    rcases List.mem_append.1 hz with hz | hz
    · exact hy.empty z hz
    · rcases hin z hz with heq | hle
      · rw [heq]
        exact hne.symm
      · exact Nat.ne_of_gt (Nat.lt_of_lt_of_le (hy.below hfitsy.listed) hle)

theorem extends_blocks {xs : List SkeletonBlock} (hready : ∀ x ∈ xs, Ready l base x d)
    (hfits : ∀ x ∈ xs, x.Fits l) (hnodup : (xs.map fun x => l.block x.id).Nodup) :
    d.code <+: (xs.foldl (Draft.block l) d).code ∧ d.trail <:+ (xs.foldl (Draft.block l) d).trail ∧
      ∀ whole, (xs.foldl (Draft.block l) d).code <+: whole →
        ∀ x ∈ xs, ∃ d', Lowered whole l base x d' := by
  -- blocks that have not been reached are still empty, since all blocks are different
  induction xs generalizing d with
  | nil => exact ⟨List.prefix_rfl, List.suffix_rfl, fun _ _ x hx => by simp at hx⟩
  | cons x xs ih =>
    rw [List.map_cons, List.nodup_cons] at hnodup
    have hx : Ready l base x d := hready x List.mem_cons_self
    have hxfits : x.Fits l := hfits x List.mem_cons_self
    have hblock := hx.extends_block hxfits
    have hnext : ∀ y ∈ xs, Ready l base y (d.block l x) := by
      intro y hy
      refine hx.after_block hxfits (hready y (List.mem_cons_of_mem _ hy))
        (hfits y (List.mem_cons_of_mem _ hy)) fun heq => hnodup.1 ?_
      exact heq ▸ List.mem_map_of_mem hy
    obtain ⟨hcode, htrail, hall⟩ := ih hnext (fun y hy => hfits y (List.mem_cons_of_mem _ hy)) hnodup.2
    refine ⟨hblock.code_isPrefix.trans hcode, hblock.trail.trans htrail, fun whole hwhole y hy => ?_⟩
    rcases List.mem_cons.1 hy with rfl | hy
    · exact ⟨d, hx, hcode.trans hwhole⟩
    · exact hall whole hwhole y hy

end
end
end MovePlan
